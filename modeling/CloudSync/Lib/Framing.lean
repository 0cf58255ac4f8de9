import Mathlib.Data.List.Basic
import Mathlib.Algebra.Order.Group.Nat
import Mathlib.Tactic.Common

/-!
# Fixed-size frames on a byte stream

A connection delivers a stream in packets and is then closed.  `recvAll` reads a
given number of elements across packet boundaries and comes back with fewer only
at the end of the stream.

`frames` are the complete consecutive frames of a stream and `fragment` is what
is left behind them.  A reader that calls `recvAll` until nothing comes back gets
the frames, and then the fragment if there is one: `received_step` is the fact
its induction needs.
-/

namespace Framing

variable {α : Type*}

/-- Read `n` elements, or as many as come before the connection is closed; the
packets that are left. -/
def recvAll : ℕ → List (List α) → List α × List (List α)
  | _, [] => ([], [])
  | n, packet :: rest =>
      if packet.length < n then
        (packet ++ (recvAll (n - packet.length) rest).1, (recvAll (n - packet.length) rest).2)
      else (packet.take n, packet.drop n :: rest)

theorem recvAll_fst (n : ℕ) (packets : List (List α)) :
    (recvAll n packets).1 = packets.flatten.take n := by
  induction packets generalizing n with
  | nil => simp [recvAll]
  | cons packet rest ih =>
      unfold recvAll
      rw [List.flatten_cons, List.take_append]
      split
      · next hshort => rw [ih, List.take_of_length_le hshort.le]
      · next hlong =>
        rw [Nat.sub_eq_zero_of_le (not_lt.mp hlong), List.take_zero, List.append_nil]

theorem recvAll_snd (n : ℕ) (packets : List (List α)) :
    (recvAll n packets).2.flatten = packets.flatten.drop n := by
  induction packets generalizing n with
  | nil => simp [recvAll]
  | cons packet rest ih =>
      unfold recvAll
      rw [List.flatten_cons, List.drop_append]
      split
      · next hshort => rw [ih, List.drop_of_length_le hshort.le, List.nil_append]
      · next hlong =>
        rw [Nat.sub_eq_zero_of_le (not_lt.mp hlong), List.drop_zero, List.flatten_cons]

/-- The complete consecutive frames of `n` elements. -/
def frames (n : ℕ) (stream : List α) : List (List α) :=
  (List.range (stream.length / n)).map fun k => (stream.drop (k * n)).take n

/-- What is left of a stream behind its complete frames. -/
def fragment (n : ℕ) (stream : List α) : List α := stream.drop (stream.length / n * n)

/-- What a reader of frames is handed: the complete ones, and what is left. -/
def received (n : ℕ) (stream : List α) : List (List α) :=
  frames n stream ++ if fragment n stream = [] then [] else [fragment n stream]

variable {n : ℕ} {stream : List α}

theorem frames_of_short (hshort : stream.length < n) : frames n stream = [] := by
  rw [frames, Nat.div_eq_of_lt hshort]
  rfl

theorem fragment_of_short (hshort : stream.length < n) : fragment n stream = stream := by
  rw [fragment, Nat.div_eq_of_lt hshort, Nat.zero_mul, List.drop_zero]

theorem length_div (hn : 0 < n) (hlong : n ≤ stream.length) :
    stream.length / n = (stream.drop n).length / n + 1 := by
  rw [List.length_drop, Nat.div_eq_sub_div hn hlong]

theorem frames_of_long (hn : 0 < n) (hlong : n ≤ stream.length) :
    frames n stream = stream.take n :: frames n (stream.drop n) := by
  unfold frames
  rw [length_div hn hlong, List.range_succ_eq_map, List.map_cons, List.map_map, Nat.zero_mul,
    List.drop_zero]
  congr 1
  apply List.map_congr_left
  intro k _
  show (stream.drop ((k + 1) * n)).take n = ((stream.drop n).drop (k * n)).take n
  rw [List.drop_drop, Nat.succ_mul, Nat.add_comm n]

theorem fragment_of_long (hn : 0 < n) (hlong : n ≤ stream.length) :
    fragment n stream = fragment n (stream.drop n) := by
  unfold fragment
  rw [length_div hn hlong, List.drop_drop, Nat.succ_mul, Nat.add_comm n]

theorem received_nil (n : ℕ) : received n ([] : List α) = [] := by
  simp [received, frames, fragment]

/-- The next thing a reader is handed is what `recvAll` comes back with. -/
theorem received_step (hn : 0 < n) (hne : stream ≠ []) :
    received n stream = stream.take n :: received n (stream.drop n) := by
  unfold received
  by_cases hshort : stream.length < n
  · rw [frames_of_short hshort, fragment_of_short hshort, if_neg hne,
      List.drop_of_length_le hshort.le, List.take_of_length_le hshort.le]
    have hnil := received_nil (α := α) n
    unfold received at hnil
    rw [hnil, List.nil_append]
  · have hlong := not_lt.mp hshort
    rw [frames_of_long hn hlong, fragment_of_long hn hlong, List.cons_append]

/-- Frames put together come apart again. -/
theorem frames_flatten (hn : 0 < n) {parts : List (List α)} (hparts : ∀ p ∈ parts, p.length = n)
    {rest : List α} (hrest : rest.length < n) :
    frames n (parts.flatten ++ rest) = parts ∧ fragment n (parts.flatten ++ rest) = rest := by
  induction parts with
  | nil => exact ⟨frames_of_short hrest, fragment_of_short hrest⟩
  | cons p parts ih =>
      have hp := hparts p (List.mem_cons_self ..)
      obtain ⟨hframes, hfragment⟩ := ih fun q hq => hparts q (List.mem_cons_of_mem _ hq)
      have hlong : n ≤ ((p :: parts).flatten ++ rest).length := by
        simp only [List.flatten_cons, List.length_append]
        omega
      have hdrop : ((p :: parts).flatten ++ rest).drop n = parts.flatten ++ rest := by
        rw [List.flatten_cons, List.append_assoc, List.drop_left' hp]
      rw [frames_of_long hn hlong, fragment_of_long hn hlong, hdrop, hframes, hfragment]
      constructor
      · rw [List.flatten_cons, List.append_assoc, List.take_left' hp]
      · rfl

end Framing
