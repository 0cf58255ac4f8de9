import Mathlib.Data.List.Sort
import Mathlib.Order.Basic

/-!
# The exchange sort

The double loop

```text
for i in 0 .. n-1:
    for j in i+1 .. n:
        if swap (a[i], a[j]): exchange a[i] and a[j]
```

`exchangePass` is the inner loop: it holds the element of slot `i` and walks over
the rest of the array, putting down whatever it exchanges.  `exchangeSort` is
the outer loop.  The result is a permutation of the input
(`exchangeSort_perm`), in order when `swap` decides a total order
(`exchangeSort_pairwise`).  `mem_take_of_sorted` describes the elements that
come first in a sorted array by how many others come later.
-/

namespace ExchangeSort

variable {α : Type*} {swap : α → α → Bool}

/-- The inner loop: the element left in slot `i`, and the slots after it. -/
def exchangePass (swap : α → α → Bool) (held : α) : List α → α × List α
  | [] => (held, [])
  | a :: rest =>
      if swap held a then
        let out := exchangePass swap a rest
        (out.1, held :: out.2)
      else
        let out := exchangePass swap held rest
        (out.1, a :: out.2)

/-- The outer loop, from a slot with `count` slots after and including it. -/
def exchangeLoop (swap : α → α → Bool) : ℕ → List α → List α
  | 0, array => array
  | _ + 1, [] => []
  | count + 1, a :: rest =>
      let out := exchangePass swap a rest
      out.1 :: exchangeLoop swap count out.2

def exchangeSort (swap : α → α → Bool) (array : List α) : List α :=
  exchangeLoop swap array.length array

theorem exchangePass_perm (swap : α → α → Bool) (held : α) (array : List α) :
    ((exchangePass swap held array).1 :: (exchangePass swap held array).2).Perm
      (held :: array) := by
  induction array generalizing held with
  | nil => exact List.Perm.refl _
  | cons a rest ih =>
      simp only [exchangePass]
      split
      · exact (List.Perm.swap ..).trans ((List.Perm.cons held (ih a)).trans (List.Perm.refl _))
      · exact (List.Perm.swap ..).trans ((List.Perm.cons a (ih held)).trans (List.Perm.swap ..))

theorem exchangePass_length (held : α) (array : List α) :
    (exchangePass swap held array).2.length = array.length := by
  have hlength := (exchangePass_perm swap held array).length_eq
  simpa using hlength

theorem exchangeLoop_perm (count : ℕ) (array : List α) :
    (exchangeLoop swap count array).Perm array := by
  induction count generalizing array with
  | zero => exact List.Perm.refl _
  | succ count ih =>
      cases array with
      | nil => exact List.Perm.refl _
      | cons a rest => exact (List.Perm.cons _ (ih _)).trans (exchangePass_perm swap a rest)

/-- The sort rearranges the array. -/
theorem exchangeSort_perm (swap : α → α → Bool) (array : List α) :
    (exchangeSort swap array).Perm array :=
  exchangeLoop_perm _ _

section Order

variable {r : α → α → Prop} (hswap : ∀ a b, swap a b = false ↔ r a b)
  (htrans : ∀ a b c, r a b → r b c → r a c) (htotal : ∀ a b, r a b ∨ r b a)

include hswap htrans htotal

/-- The inner loop leaves a least element in slot `i`. -/
theorem exchangePass_least (held : α) (array : List α) :
    ∀ a ∈ held :: array, r (exchangePass swap held array).1 a := by
  have hrefl : ∀ a, r a a := fun a => (htotal a a).elim id id
  induction array generalizing held with
  | nil => intro a ha; rw [List.mem_singleton.mp ha]; exact hrefl held
  | cons b rest ih =>
      intro a ha
      simp only [exchangePass]
      cases hb : swap held b with
      | true =>
          have hbh : r b held := by
            apply (htotal b held).resolve_right
            intro h
            rw [(hswap held b).mpr h] at hb
            exact Bool.noConfusion hb
          have hout := ih b
          rcases List.mem_cons.mp ha with rfl | ha
          · exact htrans _ _ _ (hout b (List.mem_cons_self ..)) hbh
          · exact hout a ha
      | false =>
          have hhb : r held b := (hswap held b).mp hb
          have hout := ih held
          rcases List.mem_cons.mp ha with rfl | ha
          · exact hout a (List.mem_cons_self ..)
          · rcases List.mem_cons.mp ha with rfl | ha
            · exact htrans _ _ _ (hout held (List.mem_cons_self ..)) hhb
            · exact hout a (List.mem_cons_of_mem _ ha)

theorem exchangeLoop_pairwise (count : ℕ) (array : List α) (hcount : array.length ≤ count) :
    (exchangeLoop swap count array).Pairwise r := by
  induction count generalizing array with
  | zero =>
      rw [List.length_eq_zero_iff.mp (Nat.le_zero.mp hcount)]
      exact List.Pairwise.nil
  | succ count ih =>
      cases array with
      | nil => exact List.Pairwise.nil
      | cons a rest =>
          refine List.pairwise_cons.mpr ⟨fun b hb => ?_, ih _ ?_⟩
          · apply exchangePass_least hswap htrans htotal a rest b
            refine (exchangePass_perm swap a rest).mem_iff.mp ?_
            exact List.mem_cons_of_mem _ ((exchangeLoop_perm _ _).mem_iff.mp hb)
          · rw [exchangePass_length]
            exact Nat.le_of_succ_le_succ hcount

/-- The sort puts the array in order. -/
theorem exchangeSort_pairwise (array : List α) : (exchangeSort swap array).Pairwise r :=
  exchangeLoop_pairwise hswap htrans htotal _ _ le_rfl

end Order

/-- An array of distinct elements is sorted strictly. -/
theorem exchangeSort_lt [LinearOrder α] {array : List α} (hnodup : array.Nodup) :
    (exchangeSort (fun a b => decide (b < a)) array).Pairwise (· < ·) := by
  have hswap : ∀ a b : α, decide (b < a) = false ↔ a ≤ b := fun a b => by simp
  have hle := exchangeSort_pairwise hswap (fun a b c => le_trans) le_total array
  have hne : (exchangeSort (fun a b => decide (b < a)) array).Nodup :=
    (exchangeSort_perm _ array).nodup_iff.mpr hnodup
  exact hle.imp₂ (fun a b hab hne => lt_of_le_of_ne hab hne) hne

/-- In a sorted array, an element comes before the last `keep` ones exactly when more than
`keep` elements are as large. -/
theorem mem_take_of_sorted [LinearOrder α] {array : List α} (hsorted : array.Pairwise (· ≤ ·))
    (keep : ℕ) (a : α) :
    a ∈ array.take (array.length - keep) ↔
      a ∈ array ∧ keep < (array.filter fun b => decide (a ≤ b)).length := by
  induction array with
  | nil => simp
  | cons b rest ih =>
      obtain ⟨hb, hrest⟩ := List.pairwise_cons.mp hsorted
      have hshort := List.length_filter_le (fun c => decide (a ≤ c)) (b :: rest)
      rw [List.length_cons] at hshort ⊢
      by_cases hkeep : keep ≤ rest.length
      · have hcut : rest.length + 1 - keep = (rest.length - keep) + 1 := by omega
        rw [hcut, List.take_succ_cons, List.mem_cons, List.mem_cons]
        by_cases hab : a = b
        · subst hab
          rw [List.filter_eq_self.mpr fun c hc => ?_]
          · exact iff_of_true (Or.inl rfl) ⟨Or.inl rfl, Nat.lt_succ_of_le hkeep⟩
          · rcases List.mem_cons.mp hc with rfl | hc
            · exact decide_eq_true le_rfl
            · exact decide_eq_true (hb c hc)
        · simp only [hab, false_or]
          rw [ih hrest]
          apply and_congr_right
          intro ha
          have hlt : ¬ a ≤ b := fun h => hab (le_antisymm h (hb a ha))
          rw [List.filter_cons_of_neg (by simpa using hlt)]
      · have hcut : rest.length + 1 - keep = 0 := by omega
        rw [hcut]
        refine iff_of_false (by simp) fun h => ?_
        omega

end ExchangeSort
