import CloudSync.Lib.ExchangeSort
import Mathlib.Data.ENat.Lattice
import Mathlib.Data.Finset.Dedup
import Mathlib.Data.Set.Card
import Mathlib.Data.Set.Finite.Lemmas

/-!
# Keeping the newest

`newest keep S` are the elements of `S` that fewer than `keep` others exceed:
the `keep` largest ones, or all if there are no more.  An array in order has them
at its end (`mem_take_iff_not_newest`).

Where elements are kept in the order of labels that several of them may carry, `shed`
are the labels that are dropped.  What is dropped when only a part of the elements is
seen is known from all of them (`exists_seen_shed_iff`, `exists_seen_shed_but_iff`).
-/

namespace Retention

variable {α : Type*} [LinearOrder α] {S : Set α} {keep : ℕ} {a : α}

/-- The `keep` largest elements of a set. -/
def newest (keep : ℕ) (S : Set α) : Set α := {a ∈ S | {b ∈ S | a < b}.encard < keep}

theorem newest_subset : newest keep S ⊆ S := fun _ h => h.1

/-- The largest element is kept. -/
theorem mem_newest_of_forall_le (hkeep : 0 < keep) (ha : a ∈ S) (hmax : ∀ b ∈ S, b ≤ a) :
    a ∈ newest keep S := by
  refine ⟨ha, ?_⟩
  have hempty : {b ∈ S | a < b} = ∅ :=
    Set.eq_empty_of_forall_notMem fun b hb => absurd (hmax b hb.1) (not_le_of_gt hb.2)
  rw [hempty, Set.encard_empty]
  exact_mod_cast hkeep

/-- No more than `keep` elements are kept. -/
theorem encard_newest_le (keep : ℕ) (S : Set α) : (newest keep S).encard ≤ keep := by
  by_contra hmany
  rw [not_le] at hmany
  obtain ⟨T, hT, hcard⟩ := Set.exists_subset_encard_eq (Order.add_one_le_of_lt hmany)
  have hfinite : T.Finite := Set.finite_of_encard_eq_coe (k := keep + 1) (by exact_mod_cast hcard)
  have hnonempty : T.Nonempty := by
    rw [← Set.encard_pos, hcard]
    exact_mod_cast Nat.succ_pos keep
  -- the least of more than `keep` kept elements is exceeded by `keep` others
  obtain ⟨a, ha, hleast⟩ := Set.exists_min_image T id hfinite hnonempty
  have hexceed : T \ {a} ⊆ {b ∈ S | a < b} := fun b hb =>
    ⟨newest_subset (hT hb.1), lt_of_le_of_ne (hleast b hb.1) fun h => hb.2 h.symm⟩
  have hcount : (T \ {a}).encard = keep := by
    have hadd := Set.encard_sdiff_singleton_add_one ha
    rw [hcard] at hadd
    exact (ENat.add_left_injective_of_ne_top ENat.one_ne_top) hadd
  exact absurd ((hcount ▸ Set.encard_le_encard hexceed).trans_lt (hT ha).2) (lt_irrefl _)

/-- A set that is small enough is kept whole. -/
theorem newest_eq_self (hsmall : S.encard ≤ keep) : newest keep S = S := by
  refine Set.Subset.antisymm newest_subset fun a ha => ⟨ha, ?_⟩
  have hinsert : ({b ∈ S | a < b}).encard + 1 ≤ S.encard := by
    rw [← Set.encard_insert_of_notMem (a := a) fun h => lt_irrefl a h.2]
    exact Set.encard_le_encard (Set.insert_subset ha fun b hb => hb.1)
  have hlt : ({b ∈ S | a < b}).encard + 1 ≤ keep := hinsert.trans hsmall
  exact (ENat.add_one_le_iff (ne_top_of_le_ne_top (ENat.natCast_ne_top keep)
    (le_self_add.trans hlt))).mp hlt

/-- An element that is not kept with the others is below them, and they are kept whole. -/
theorem newest_insert_of_notMem {T : Set α} (hsmall : T.encard ≤ keep)
    (ha : a ∉ newest keep (insert a T)) : newest keep (insert a T) = T := by
  have habove : {b ∈ insert a T | a < b} ⊆ T := by
    rintro b ⟨hb, hlt⟩
    exact Set.mem_of_mem_insert_of_ne hb (ne_of_gt hlt)
  have hmany : keep ≤ {b ∈ insert a T | a < b}.encard := by
    by_contra hfew
    exact ha ⟨Set.mem_insert a T, not_le.mp hfew⟩
  have hfinite : T.Finite := Set.finite_of_encard_le_coe hsmall
  have hall : {b ∈ insert a T | a < b} = T :=
    hfinite.eq_of_subset_of_encard_le' habove (hsmall.trans hmany)
  ext b
  constructor
  · intro hb
    exact Set.mem_of_mem_insert_of_ne (newest_subset hb) fun h => ha (h ▸ hb)
  · intro hb
    have hlt : a < b := (hall.symm ▸ hb : b ∈ {b ∈ insert a T | a < b}).2
    refine ⟨Set.mem_insert_of_mem a hb, lt_of_lt_of_le ?_ hsmall⟩
    have hsub : {c ∈ insert a T | b < c} ⊂ T := by
      refine (Set.ssubset_iff_of_subset ?_).mpr ⟨b, hb, fun h => lt_irrefl b h.2⟩
      rintro c ⟨hc, hbc⟩
      exact Set.mem_of_mem_insert_of_ne hc (ne_of_gt (hlt.trans hbc))
    exact (hfinite.subset hsub.subset).encard_lt_encard hsub

/-! ## Seeing a part

Who has room for `room` elements only sees all of a smaller set, and some `room`
elements of a larger one. -/

/-- `W` may be what is seen of `S`. -/
def Seen (room : ℕ) (S W : Set α) : Prop := W ⊆ S ∧ W.encard = min S.encard room

variable {W : Set α} {room : ℕ}

omit [LinearOrder α] in
theorem Seen.encard_le (h : Seen room S W) : W.encard ≤ room := h.2.trans_le (min_le_right _ _)

omit [LinearOrder α] in
/-- A small set is seen whole. -/
theorem Seen.eq_of_few (h : Seen room S W) (hfew : S.encard ≤ room) : W = S := by
  have hcard : S.encard ≤ W.encard := by rw [h.2, min_eq_left hfew]
  exact (Set.finite_of_encard_le_coe hfew).eq_of_subset_of_encard_le' h.1 hcard

omit [LinearOrder α] in
theorem exists_seen (room : ℕ) (S : Set α) : ∃ W, Seen room S W :=
  Set.exists_subset_encard_eq (min_le_left S.encard room)

/-! ## Lists without repetition -/

omit [LinearOrder α] in
theorem encard_setOf_mem {l : List α} (hl : l.Nodup) : {a | a ∈ l}.encard = l.length := by
  classical
  rw [← List.coe_toFinset, Set.encard_coe_eq_coe_finsetCard, List.toFinset_card_of_nodup hl]

/-! ## Labels

Elements carry labels, and several may carry the same one.  Who drops all but `keep` of
them in the order of their labels drops a label if more than `keep` elements carry it or
a larger one. -/

section Labels

variable {β : Type*} {label : β → α} {E W : Set β} {X : Set α} {room : ℕ} {b : α}

/-- The labels that are dropped. -/
def shed (keep : ℕ) (label : β → α) (E : Set β) : Set α :=
  {a | (∃ e ∈ E, label e = a) ∧ keep < {e ∈ E | a ≤ label e}.encard}

theorem shed_mono (h : W ⊆ E) : shed keep label W ⊆ shed keep label E := by
  rintro a ⟨⟨e, he, hlabel⟩, hmany⟩
  exact ⟨⟨e, h he, hlabel⟩, hmany.trans_le (Set.encard_le_encard fun e he => ⟨h he.1, he.2⟩)⟩

/-- A list in the order of its labels has the labels that are dropped before its last `keep`. -/
theorem mem_take_iff_shed {l : List β} (hl : l.Nodup) {sorted : List α}
    (hperm : sorted.Perm (l.map label)) (hsorted : sorted.Pairwise (· ≤ ·)) (keep : ℕ) (a : α) :
    a ∈ sorted.take (l.length - keep) ↔ a ∈ shed keep label {e | e ∈ l} := by
  have hlength : sorted.length = l.length := hperm.length_eq.trans (List.length_map _)
  have hcount : (sorted.filter fun b => decide (a ≤ b)).length =
      (l.filter fun e => decide (a ≤ label e)).length := by
    rw [(hperm.filter _).length_eq, List.filter_map, List.length_map]
    rfl
  have hset : {e ∈ {e | e ∈ l} | a ≤ label e} = {e | e ∈ l.filter fun e => decide (a ≤ label e)} := by
    ext e
    simp
  rw [← hlength, ExchangeSort.mem_take_of_sorted hsorted, hperm.mem_iff, List.mem_map, hcount]
  apply and_congr_right
  intro _
  rw [hset, encard_setOf_mem (hl.filter _), Nat.cast_lt]

/-- Where the elements are their own labels, those not kept are dropped. -/
theorem mem_shed_id {S : Set α} : a ∈ shed keep id S ↔ a ∈ S ∧ a ∉ newest keep S := by
  have hmem : (∃ e ∈ S, id e = a) ↔ a ∈ S := ⟨fun ⟨_, he, h⟩ => h ▸ he, fun h => ⟨a, h, rfl⟩⟩
  rw [shed, Set.mem_ofPred_eq, hmem]
  apply and_congr_right
  intro ha
  have hinsert : {e ∈ S | a ≤ id e} = insert a {b ∈ S | a < b} := by
    ext b
    rw [Set.mem_insert_iff]
    constructor
    · exact fun h => h.2.eq_or_lt.imp Eq.symm fun hlt => ⟨h.1, hlt⟩
    · rintro (rfl | h)
      · exact ⟨ha, le_rfl⟩
      · exact ⟨h.1, h.2.le⟩
  rw [hinsert, Set.encard_insert_of_notMem fun h => lt_irrefl a h.2, ENat.natCast_lt_add_one_iff,
    newest, Set.mem_ofPred_eq, not_and, not_lt]
  exact ⟨fun h _ => h, fun h => h ha⟩

/-- In a sorted list the elements before the last `keep` are those not kept. -/
theorem mem_take_iff_not_newest {l : List α} (hl : l.Pairwise (· < ·)) (keep : ℕ) (a : α) :
    a ∈ l.take (l.length - keep) ↔ a ∈ l ∧ a ∉ newest keep {a | a ∈ l} := by
  have hperm : l.Perm (l.map id) := by rw [List.map_id]
  rw [mem_take_iff_shed (hl.imp ne_of_lt) hperm (hl.imp le_of_lt), mem_shed_id]
  rfl

omit [LinearOrder α] in
/-- Elements that carry the labels, one for each. -/
theorem exists_bearers (h : ∀ a ∈ X, ∃ e ∈ E, label e = a) :
    ∃ S ⊆ E, S.encard = X.encard ∧ label '' S = X := by
  obtain ⟨S, hS, hbij⟩ := Set.exists_subset_bijOn (E ∩ Set.preimage label X) label
  have himage : label '' (E ∩ Set.preimage label X) = X := by
    ext a
    constructor
    · rintro ⟨e, he, rfl⟩
      exact he.2
    · intro ha
      obtain ⟨e, he, rfl⟩ := h a ha
      exact ⟨e, ⟨he, ha⟩, rfl⟩
  rw [himage] at hbij
  refine ⟨S, fun e he => (hS he).1, ?_, hbij.image_eq⟩
  rw [← hbij.image_eq, hbij.injOn.encard_image]

omit [LinearOrder α] in
theorem finite_of_bearers {S : Set β} (hcard : S.encard = X.encard) (hS : S ⊆ W)
    (hW : Seen room E W) : X.Finite := by
  rw [← Set.encard_lt_top_iff, ← hcard]
  exact ((Set.encard_le_encard hS).trans hW.encard_le).trans_lt (ENat.natCast_lt_top room)

/-- Dropping all labels of `X` takes room for them and the elements kept. -/
theorem exists_seen_shed_iff (hkeep : keep ≤ room) :
    (∃ W, Seen room E W ∧ X ⊆ shed keep label W) ↔
      X.encard + keep ≤ room ∧ X ⊆ shed keep label E := by
  constructor
  · rintro ⟨W, hW, hshed⟩
    refine ⟨?_, hshed.trans (shed_mono hW.1)⟩
    rcases X.eq_empty_or_nonempty with rfl | hsome
    · rw [Set.encard_empty, zero_add]
      exact_mod_cast hkeep
    obtain ⟨S, hS, hcard, -⟩ := exists_bearers fun a ha => (hshed ha).1
    have hfinite := finite_of_bearers hcard hS hW
    -- elements for all labels but the largest, and those with the largest or a larger one
    obtain ⟨m, hm, hmax⟩ := Set.exists_max_image X id hfinite hsome
    obtain ⟨S, hS, hcard, himage⟩ :=
      exists_bearers (X := X \ {m}) fun a ha => (hshed ha.1).1
    have hdisjoint : Disjoint S {e ∈ W | m ≤ label e} := by
      refine Set.disjoint_left.mpr fun e he hlarge => ?_
      obtain ⟨hmem, hne⟩ : label e ∈ X \ {m} := himage ▸ Set.mem_image_of_mem label he
      exact hne (le_antisymm (hmax _ hmem) hlarge.2)
    calc X.encard + keep
        = (X \ {m}).encard + (keep + 1) := by
          rw [← Set.encard_sdiff_singleton_add_one hm, add_assoc, add_comm 1]
      _ ≤ S.encard + {e ∈ W | m ≤ label e}.encard := by
          rw [hcard]
          gcongr
          exact Order.add_one_le_of_lt (hshed hm).2
      _ = (S ∪ {e ∈ W | m ≤ label e}).encard := (Set.encard_union_eq hdisjoint).symm
      _ ≤ W.encard := Set.encard_le_encard (Set.union_subset hS fun _ h => h.1)
      _ ≤ room := hW.encard_le
  · rintro ⟨hroom, hshed⟩
    rcases X.eq_empty_or_nonempty with rfl | hsome
    · obtain ⟨W, hW⟩ := exists_seen room E
      exact ⟨W, hW, Set.empty_subset _⟩
    have hfinite : X.Finite := Set.finite_of_encard_le_coe (le_self_add.trans hroom)
    obtain ⟨m, hm, hmax⟩ := Set.exists_max_image X id hfinite hsome
    obtain ⟨S, hS, hcard, himage⟩ := exists_bearers fun a ha => (hshed ha).1
    obtain ⟨top, htop, hlabel⟩ : m ∈ label '' S := himage.symm ▸ hm
    have hothers : (keep : ℕ∞) ≤ ({e ∈ E | m ≤ label e} \ {top}).encard := by
      have hadd := Set.encard_sdiff_singleton_add_one
        (show top ∈ {e ∈ E | m ≤ label e} from ⟨hS htop, hlabel.ge⟩)
      have hmany := (hshed hm).2
      rw [← hadd] at hmany
      exact ENat.natCast_lt_add_one_iff.mp hmany
    obtain ⟨T, hT, hcount⟩ := Set.exists_subset_encard_eq hothers
    have hsub : S ∪ T ⊆ E := Set.union_subset hS fun e he => (hT he).1.1
    have hfits : (S ∪ T).encard ≤ min E.encard room := by
      refine le_min (Set.encard_le_encard hsub) ((Set.encard_union_le S T).trans ?_)
      rwa [hcount, hcard]
    obtain ⟨W, hin, hW, hcard⟩ :=
      Set.exists_superset_subset_encard_eq hsub hfits (min_le_left E.encard room)
    refine ⟨W, ⟨hW, hcard⟩, fun a ha => ?_⟩
    obtain ⟨e, he, hea⟩ : a ∈ label '' S := himage.symm ▸ ha
    refine ⟨⟨e, hin (Or.inl he), hea⟩, ?_⟩
    -- `T` and `top` have labels as large as any of `X`
    have hlarge : insert top T ⊆ {e ∈ W | a ≤ label e} := by
      rintro e (rfl | he)
      · exact ⟨hin (Or.inl htop), (hmax a ha).trans hlabel.ge⟩
      · exact ⟨hin (Or.inr he), (hmax a ha).trans (hT he).1.2⟩
    have hmany := Set.encard_le_encard hlarge
    rw [Set.encard_insert_of_notMem fun h => (hT h).2 rfl, hcount] at hmany
    exact ENat.natCast_lt_add_one_iff.mpr le_rfl |>.trans_le hmany

/-- Not more than `keep` elements with `b` or a larger label are seen, and all others are
below them. -/
theorem exists_seen_shed_below (hX : X ⊆ shed keep label E) (hroom : X.encard + keep ≤ room)
    (hbelow : ∀ a ∈ X, a < b) (hb : b ∈ shed keep label E) (hlt : room < E.encard)
    (henough : room ≤ {e ∈ E | label e < b}.encard + keep) :
    ∃ W, Seen room E W ∧ X ⊆ shed keep label W ∧ b ∉ shed keep label W := by
  obtain ⟨S, hS, hcard, himage⟩ := exists_bearers fun a ha => (hX ha).1
  obtain ⟨T, hT, hcount⟩ := Set.exists_subset_encard_eq hb.2.le
  have hlow : ∀ e ∈ S, label e < b := fun e he => hbelow _ (himage ▸ Set.mem_image_of_mem label he)
  have hsub : S ∪ T ⊆ {e ∈ E | label e < b} ∪ T :=
    Set.union_subset_union_left T fun e he => ⟨hS he, hlow e he⟩
  have hfits : (S ∪ T).encard ≤ room := by
    refine (Set.encard_union_le S T).trans ?_
    rwa [hcount, hcard]
  have hdisjoint : Disjoint {e ∈ E | label e < b} T :=
    Set.disjoint_left.mpr fun e he heT => absurd he.2 (not_lt_of_ge (hT heT).2)
  have hlarge : (room : ℕ∞) ≤ ({e ∈ E | label e < b} ∪ T).encard := by
    rwa [Set.encard_union_eq hdisjoint, hcount]
  obtain ⟨W, hin, hW, hcardW⟩ := Set.exists_superset_subset_encard_eq hsub hfits hlarge
  refine ⟨W, ⟨hW.trans ?_, by rw [hcardW, min_eq_right hlt.le]⟩, fun a ha => ?_, fun hshed => ?_⟩
  · exact Set.union_subset (fun e he => he.1) fun e he => (hT he).1
  · obtain ⟨e, he, rfl⟩ : a ∈ label '' S := himage.symm ▸ ha
    refine ⟨⟨e, hin (Or.inl he), rfl⟩, ?_⟩
    have hsame : insert e T ⊆ {e' ∈ W | label e ≤ label e'} := by
      rintro e' (rfl | he')
      · exact ⟨hin (Or.inl he), le_rfl⟩
      · exact ⟨hin (Or.inr he'), (hlow e he).le.trans (hT he').2⟩
    have hmany := Set.encard_le_encard hsame
    rw [Set.encard_insert_of_notMem fun h => absurd (hlow e he) (not_lt_of_ge (hT h).2),
      hcount] at hmany
    exact (ENat.natCast_lt_add_one_iff.mpr le_rfl).trans_le hmany
  · have hfew : {e ∈ W | b ≤ label e} ⊆ T := fun e he =>
      (hW he.1).resolve_left fun h => absurd h.2 (not_lt_of_ge he.2)
    exact absurd (hshed.2.trans_le (Set.encard_le_encard hfew)) (by rw [hcount]; exact lt_irrefl _)

/-- A label that is dropped only together with those of `b` has `b` above it, as have all
others that are dropped. -/
theorem below_of_notMem_shed (hX : X ⊆ shed keep label E) (hb : b ∉ X) (ha : a ∈ X)
    (hlow : a ∉ shed keep label {e ∈ E | label e ≠ b}) :
    (∀ c ∈ X, c < b) ∧ {e ∈ E | b < label e}.encard ≤ keep := by
  have hfew : {e ∈ {e ∈ E | label e ≠ b} | a ≤ label e}.encard ≤ keep := by
    obtain ⟨⟨e, he, hlabel⟩, -⟩ := hX ha
    exact not_lt.mp fun h => hlow ⟨⟨e, ⟨he, fun h => hb (h ▸ hlabel ▸ ha)⟩, hlabel⟩, h⟩
  -- without `b` at or above `c`, what is above `c` would be few as well
  have hbelow : ∀ c ∈ X, a ≤ c → c < b := by
    intro c hc hac
    by_contra hcb
    have hsub : {e ∈ E | c ≤ label e} ⊆ {e ∈ {e ∈ E | label e ≠ b} | a ≤ label e} := by
      rintro e ⟨he, hce⟩
      refine ⟨⟨he, fun h => ?_⟩, hac.trans hce⟩
      exact hb (le_antisymm (not_lt.mp hcb) (h ▸ hce) ▸ hc)
    exact absurd ((hX hc).2.trans_le (Set.encard_le_encard hsub)) (not_lt.mpr hfew)
  have hab := hbelow a ha le_rfl
  refine ⟨fun c hc => ?_, ?_⟩
  · rcases le_total a c with hac | hca
    · exact hbelow c hc hac
    · exact hca.trans_lt hab
  · refine (Set.encard_le_encard ?_).trans hfew
    exact fun e he => ⟨⟨he.1, ne_of_gt he.2⟩, (hab.trans he.2).le⟩

/-- Dropping all labels of `X` and not `b`: `b` is not dropped anyhow, or there are enough
elements without those that carry it, or with no more than `keep` of those that carry it or
a larger label. -/
theorem exists_seen_shed_but_iff (hkeep : keep ≤ room) :
    (∃ W, Seen room E W ∧ X ⊆ shed keep label W ∧ b ∉ shed keep label W) ↔
      (X.encard + keep ≤ room ∧ X ⊆ shed keep label E) ∧ b ∉ X ∧
        (b ∉ shed keep label E ∨ room ≤ {e ∈ E | label e ≠ b}.encard ∨
          (∀ a ∈ X, a < b) ∧ room < E.encard ∧ room ≤ {e ∈ E | label e < b}.encard + keep) := by
  constructor
  · rintro ⟨W, hW, hX, hb⟩
    refine ⟨(exists_seen_shed_iff hkeep).mp ⟨W, hW, hX⟩, fun h => hb (hX h), ?_⟩
    by_cases hbE : b ∈ shed keep label E
    · have hlt : (room : ℕ∞) < E.encard := by
        by_contra hfew
        rw [hW.eq_of_few (not_lt.mp hfew)] at hb
        exact hb hbE
      have hfull : W.encard = room := by rw [hW.2, min_eq_right hlt.le]
      by_cases hseen : ∃ e ∈ W, label e = b
      · have hfew : {e ∈ W | b ≤ label e}.encard ≤ keep := not_lt.mp fun h => hb ⟨hseen, h⟩
        refine Or.inr (Or.inr ⟨fun a ha => ?_, hlt, ?_⟩)
        · by_contra hba
          have hless : {e ∈ W | a ≤ label e} ⊆ {e ∈ W | b ≤ label e} := fun e he =>
            ⟨he.1, (not_lt.mp hba).trans he.2⟩
          exact absurd ((hX ha).2.trans_le (Set.encard_le_encard hless)) (not_lt.mpr hfew)
        · have hsplit : W ⊆ {e ∈ E | label e < b} ∪ {e ∈ W | b ≤ label e} := fun e he =>
            (lt_or_ge (label e) b).imp (fun h => ⟨hW.1 he, h⟩) fun h => ⟨he, h⟩
          rw [← hfull]
          refine (Set.encard_le_encard hsplit).trans ((Set.encard_union_le _ _).trans ?_)
          gcongr
      · refine Or.inr (Or.inl ?_)
        rw [← hfull]
        exact Set.encard_le_encard fun e he => ⟨hW.1 he, fun h => hseen ⟨e, he, h⟩⟩
    · exact Or.inl hbE
  · rintro ⟨hdrop, hnot, hcases⟩
    by_cases hbE : b ∈ shed keep label E
    · rcases hcases.resolve_left (not_not.mpr hbE) with hwithout | ⟨hbelow, hlt, henough⟩
      · by_cases hothers : X ⊆ shed keep label {e ∈ E | label e ≠ b}
        · obtain ⟨W, hW, hX⟩ := (exists_seen_shed_iff hkeep).mpr ⟨hdrop.1, hothers⟩
          have hroom : (room : ℕ∞) ≤ E.encard :=
            hwithout.trans (Set.encard_le_encard fun e he => he.1)
          refine ⟨W, ⟨fun e he => (hW.1 he).1, ?_⟩, hX, fun h => ?_⟩
          · rw [hW.2, min_eq_right hwithout, min_eq_right hroom]
          · obtain ⟨⟨e, he, hlabel⟩, -⟩ := h
            exact (hW.1 he).2 hlabel
        · obtain ⟨a, ha, hlow⟩ := Set.not_subset.mp hothers
          obtain ⟨hbelow, hfew⟩ := below_of_notMem_shed hdrop.2 hnot ha hlow
          obtain ⟨top, htop, hlabel⟩ := hbE.1
          refine exists_seen_shed_below hdrop.2 hdrop.1 hbelow hbE ?_ ?_
          · have hmore := Set.encard_le_encard (Set.insert_subset htop
              (show {e ∈ E | label e ≠ b} ⊆ E from fun e he => he.1))
            rw [Set.encard_insert_of_notMem fun h => h.2 hlabel] at hmore
            exact (ENat.natCast_lt_add_one_iff.mpr hwithout).trans_le hmore
          · have hsplit : {e ∈ E | label e ≠ b} ⊆ {e ∈ E | label e < b} ∪ {e ∈ E | b < label e} :=
              fun e he => (lt_or_gt_of_ne he.2).imp (fun h => ⟨he.1, h⟩) fun h => ⟨he.1, h⟩
            refine hwithout.trans ((Set.encard_le_encard hsplit).trans
              ((Set.encard_union_le _ _).trans ?_))
            gcongr
      · exact exists_seen_shed_below hdrop.2 hdrop.1 hbelow hbE hlt henough
    · obtain ⟨W, hW, hX⟩ := (exists_seen_shed_iff hkeep).mpr hdrop
      exact ⟨W, hW, hX, fun h => hbE (shed_mono hW.1 h)⟩

end Labels

/-! ## Marks -/

/-- The members of a finite family that carry a mark carry no more marks than they are. -/
theorem encard_marks_le {ι β : Type*} [Fintype ι] (mark : ι → Option β) :
    {b | ∃ i, mark i = some b}.encard ≤ Fintype.card ι := by
  calc {b | ∃ i, mark i = some b}.encard
      = (some '' {b | ∃ i, mark i = some b}).encard :=
        ((Option.some_injective β).encard_image _).symm
    _ ≤ (mark '' Set.univ).encard := by
        apply Set.encard_le_encard
        rintro _ ⟨b, ⟨i, hi⟩, rfl⟩
        exact ⟨i, trivial, hi⟩
    _ ≤ (Set.univ : Set ι).encard := Set.encard_image_le mark Set.univ
    _ = Fintype.card ι := by rw [Set.encard_univ, ENat.card_eq_coe_fintype_card]

end Retention
