import CloudSync.Lib.Faults
import CloudSync.State.Storage

/-!
# Reading and writing a file, whatever the calls do

`saveFile` and `readFile` with system calls that may fail or fall short.  What
they report can be relied on: a successful `saveFile` has stored all of the data
(`saveFile_stored`).  `readFile` does not notice a short read (`readFile_run`).
-/

namespace CloudSync

open CText Calls Calls.Prog Files

variable {f : Bytes} {t : Tree}

/-- A successful `save_file` has stored the data. -/
theorem saveFile_stored (f data : Bytes) (t : Tree) :
    wp disk (fun _ => True) (saveFile f data)
      (fun result t' => 0 ≤ result → content t' f = some data) t := by
  simp only [saveFile, perform_bind, pure_eq_ret]
  rw [wp_call]
  intro c _
  rcases exec_openTrunc c (getFilepath f) t with hopen | ⟨hopen, hpath, hempty⟩
  · rw [hopen]
    intro h
    exact absurd h (by decide)
  · rw [hopen]
    simp only [Bool.not_true, Bool.false_eq_true, if_false, wp_call]
    intro c _
    -- a lock changes nothing
    show wp _ _ _ _ (disk.exec _ (.openTrunc (getFilepath f)) t).2
    split
    · intro _ _ h
      exact absurd h (by decide)
    · rw [wp_call]
      intro c _
      simp only [disk]
      by_cases hfail : c.outcome = .fail
      · simp only [if_pos hfail]
        intro _ _ _ _ h
        exact absurd h (by decide)
      · simp only [if_neg hfail]
        split
        · intro _ _ _ _ h
          exact absurd h (by decide)
        · next hwritten =>
          intro _ _ _ _ _
          have hall : data.take (c.outcome.limit data.length) = data := by
            apply List.take_of_length_le
            rw [ne_eq, not_not, Option.some_inj, List.length_take] at hwritten
            omega
          rw [hall]
          exact Tree.bytes?_write_empty hpath hempty data

/-- `read_file` returns what the system read, be it all or not. -/
theorem readFile_run (f : Bytes) (env : ℕ → Conditions) (t : Tree) :
    (readFile f).run disk env t = ((-1, []), t) ∨
      ∃ bytes, content t f = some bytes ∧
        (readFile f).run disk env t =
          ((0, bytes.take ((env 2).outcome.limit maxFileSize)), t) := by
  simp only [readFile, perform_bind, pure_eq_ret, run_call]
  by_cases hopen : (env 0).outcome = .fail
  · left
    simp [disk, hopen]
  · cases hbytes : t.bytes? (resolve (getFilepath f)) with
    | none =>
        left
        simp [disk, hopen, hbytes]
    | some bytes =>
        by_cases hlock : (env 1).outcome = .fail
        · left
          simp [disk, hopen, hbytes, hlock]
        · by_cases hread : (env 2).outcome = .fail
          · left
            simp [disk, hopen, hbytes, hlock, hread]
          · right
            refine ⟨bytes, hbytes, ?_⟩
            simp [disk, hopen, hbytes, hlock, hread, Tree.read]

end CloudSync
