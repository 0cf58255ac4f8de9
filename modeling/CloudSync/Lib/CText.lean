import Mathlib.Data.Nat.Digits.Defs
import Mathlib.Data.Nat.Digits.Lemmas
import Mathlib.Data.List.Basic
import Mathlib.Tactic.Ring

/-!
# C strings and C integers

C strings are modelled by the list of their bytes up to, and without, the
terminating NUL.  The file has the pieces of the C library that programs
working on such strings use: the bounded copies `strncpy` and `snprintf`, the
conversions `%d` and `atoi`, `strtok_r`, and the splitting of a string at a
separator.  `int32` is the value a 32-bit `int` keeps of an integer.

The main facts are that `atoi` reads back what `%d` wrote (`atoi_decimal`), and
that the tokens `strtok_r` finds are the non-empty fields between separators
(`strtok_eq_none`, `strtok_eq_some`).
-/

namespace CText

/-- A byte string. -/
abbrev Bytes := List UInt8

/-- The bytes of a string literal, in UTF-8. -/
def text (s : String) : Bytes := s.toList.flatMap String.utf8EncodeChar

/-- The C string held by a character buffer: its bytes before the first NUL. -/
def cstr (buffer : Bytes) : Bytes := buffer.takeWhile (· ≠ 0)

/-- `strncpy(dst, src, count)` into a buffer whose byte `count` is NUL: at most
`count` bytes are copied, and the rest of the buffer is padded with NULs. -/
def strncpy (count : ℕ) (src : Bytes) : Bytes := src.take count

/-- A character array of `size` bytes that holds a string, with NULs behind it. -/
def padTo (size : ℕ) (s : Bytes) : Bytes := s ++ List.replicate (size - s.length) 0

theorem padTo_length {size : ℕ} {s : Bytes} (hs : s.length ≤ size) :
    (padTo size s).length = size := by
  rw [padTo, List.length_append, List.length_replicate]
  omega

/-- The array gives the string back. -/
theorem cstr_padTo {size : ℕ} {s : Bytes} (hs : (0 : UInt8) ∉ s) : cstr (padTo size s) = s := by
  have hall : ∀ b ∈ s, decide (b ≠ 0) = true := by
    intro b hb
    apply decide_eq_true
    rintro rfl
    exact hs hb
  unfold cstr padTo
  rw [List.takeWhile_append_of_pos hall]
  cases size - s.length with
  | zero => simp
  | succ n => simp [List.replicate_succ]

/-- A buffer without a NUL is all string. -/
theorem cstr_of_not_mem {s : Bytes} (hs : (0 : UInt8) ∉ s) : cstr s = s := by
  have hpadded := @cstr_padTo 0 s hs
  rwa [padTo, Nat.zero_sub, List.replicate_zero, List.append_nil] at hpadded

/-- The string `snprintf` leaves in a buffer of `size` bytes. -/
def snprintf (size : ℕ) (printed : Bytes) : Bytes := printed.take (size - 1)

/-- The value a 32-bit two's complement `int` keeps. -/
def int32 (x : ℤ) : ℤ := x.bmod (2 ^ 32)

/-- The values of an `int`. -/
def InInt (x : ℤ) : Prop := -2 ^ 31 ≤ x ∧ x < 2 ^ 31

instance (x : ℤ) : Decidable (InInt x) :=
  inferInstanceAs (Decidable (-2 ^ 31 ≤ x ∧ x < 2 ^ 31))

theorem int32_of_range {x : ℤ} (hx : InInt x) : int32 x = x := by
  obtain ⟨hlow, hhigh⟩ := hx
  apply Int.bmod_eq_of_le <;> norm_num <;> omega

theorem int32_range (x : ℤ) : InInt (int32 x) := by
  have hlow := Int.le_bmod (x := x) (m := 2 ^ 32) (by norm_num)
  have hhigh := Int.bmod_lt (x := x) (m := 2 ^ 32) (by norm_num)
  rw [← int32] at hlow hhigh
  constructor <;> omega

/-! ## Decimal numbers -/

/-- The digit character of `d < 10`. -/
def digit (d : ℕ) : UInt8 := UInt8.ofNat (48 + d)

def isDigit (b : UInt8) : Bool := 48 ≤ b && b ≤ 57

/-- The decimal digits of a natural number, most significant first. -/
def decimalNat (n : ℕ) : Bytes :=
  if n = 0 then [48] else (Nat.digits 10 n).reverse.map digit

/-- What `printf` writes for `%d`. -/
def decimal : ℤ → Bytes
  | .ofNat n => decimalNat n
  | .negSucc n => 45 :: decimalNat (n + 1)

/-- The number a run of digits denotes. -/
def digitsValue (digits : Bytes) : ℕ :=
  digits.foldl (fun value b => value * 10 + (b.toNat - 48)) 0

/-- The bytes `strtol` skips at the front. -/
def isSpace (b : UInt8) : Bool := b == 32 || (9 ≤ b && b ≤ 13)

/-- `strtol` in base 10, before clamping: spaces, an optional sign, digits. -/
def strtol (s : Bytes) : ℤ :=
  match s.dropWhile isSpace with
  | [] => 0
  | b :: rest =>
      if b = 45 then -(digitsValue (rest.takeWhile isDigit) : ℤ)
      else if b = 43 then digitsValue (rest.takeWhile isDigit)
      else digitsValue ((b :: rest).takeWhile isDigit)

/-- `atoi`: `strtol` clamped to a 64-bit `long`, then cut to an `int`. -/
def atoi (s : Bytes) : ℤ := int32 (max (-2 ^ 63) (min (2 ^ 63 - 1) (strtol s)))

theorem atoi_range (s : Bytes) : InInt (atoi s) := int32_range _

/-- The length of a literal, which the unifier spells out. -/
theorem text_length_of {l : List Char} {n : ℕ} (hn : (l.map Char.utf8Size).sum = n) :
    (text (String.ofList l)).length = n := by
  simp [text, List.length_flatMap, hn]

theorem length_append_of {a b : Bytes} {m n : ℕ} (ha : a.length = m) (hb : b.length = n) :
    (a ++ b).length = m + n := by
  rw [List.length_append, ha, hb]

theorem digit_toNat {d : ℕ} (hd : d < 10) : (digit d).toNat = 48 + d := by
  unfold digit
  rw [UInt8.toNat_ofNat']
  omega

theorem isDigit_digit {d : ℕ} (hd : d < 10) : isDigit (digit d) = true := by
  have hall : ∀ d, d < 10 → isDigit (digit d) = true := by decide
  exact hall d hd

theorem isDigit_of_mem_decimalNat {n : ℕ} {b : UInt8} (hb : b ∈ decimalNat n) :
    isDigit b = true := by
  unfold decimalNat at hb
  split at hb
  · rw [List.mem_singleton.mp hb]
    rfl
  · obtain ⟨d, hd, rfl⟩ := List.mem_map.mp hb
    exact isDigit_digit (Nat.digits_lt_base (by norm_num) (List.mem_reverse.mp hd))

theorem decimalNat_ne_nil (n : ℕ) : decimalNat n ≠ [] := by
  unfold decimalNat
  split
  · simp
  · simpa [Nat.digits_eq_nil_iff_eq_zero]

theorem decimal_ne_nil (i : ℤ) : decimal i ≠ [] := by
  cases i with
  | ofNat n => exact decimalNat_ne_nil n
  | negSucc n => simp [decimal]

theorem decimalNat_length_le {n k : ℕ} (hk : 0 < k) (hn : n < 10 ^ k) :
    (decimalNat n).length ≤ k := by
  unfold decimalNat
  split
  · exact hk
  · rw [List.length_map, List.length_reverse]
    exact (Nat.digits_length_le_iff (by norm_num) n).mpr hn

/-- A printed `int` has at most eleven characters. -/
theorem decimal_length_le {i : ℤ} (hi : InInt i) : (decimal i).length ≤ 11 := by
  unfold InInt at hi
  cases i with
  | ofNat n =>
      have hn : n < 10 ^ 11 := by
        have hhigh : (n : ℤ) < 2 ^ 31 := hi.2
        omega
      exact decimalNat_length_le (by norm_num) hn
  | negSucc n =>
      have hn : n + 1 < 10 ^ 10 := by omega
      have hlength := decimalNat_length_le (by norm_num) hn
      rw [decimal, List.length_cons]
      omega

private theorem foldl_digits (digits : List ℕ) (hdigits : ∀ d ∈ digits, d < 10) :
    digitsValue (digits.reverse.map digit) = Nat.ofDigits 10 digits := by
  unfold digitsValue
  induction digits with
  | nil => rfl
  | cons d rest ih =>
      have hd := hdigits d (List.mem_cons_self ..)
      rw [List.reverse_cons, List.map_append, List.foldl_append,
        ih fun e he => hdigits e (List.mem_cons_of_mem _ he), Nat.ofDigits_cons]
      simp only [List.map_cons, List.map_nil, List.foldl_cons, List.foldl_nil, digit_toNat hd]
      omega

theorem digitsValue_decimalNat (n : ℕ) : digitsValue (decimalNat n) = n := by
  unfold decimalNat
  split
  · next hzero => rw [hzero]; rfl
  · rw [foldl_digits _ fun d hd => Nat.digits_lt_base (by norm_num) hd, Nat.ofDigits_digits]

/-- A byte that ends the number `atoi` reads. -/
def EndsNumber (rest : Bytes) : Prop := ∀ b ∈ rest.head?, isDigit b = false

private theorem takeWhile_decimalNat (n : ℕ) {rest : Bytes} (hrest : EndsNumber rest) :
    (decimalNat n ++ rest).takeWhile isDigit = decimalNat n := by
  rw [List.takeWhile_append_of_pos fun b hb => isDigit_of_mem_decimalNat hb]
  cases rest with
  | nil => simp
  | cons b rest => simp [hrest b (by simp)]

/-- `strtol` reads back a printed number, whatever follows it. -/
theorem strtol_decimal (i : ℤ) {rest : Bytes} (hrest : EndsNumber rest) :
    strtol (decimal i ++ rest) = i := by
  cases i with
  | ofNat n =>
      have htake := takeWhile_decimalNat n hrest
      have hvalue := digitsValue_decimalNat n
      cases hdigits : decimalNat n with
      | nil => exact absurd hdigits (decimalNat_ne_nil n)
      | cons b digits =>
          have hb : isDigit b = true := isDigit_of_mem_decimalNat (by rw [hdigits]; simp)
          have hspace : isSpace b = false := by
            unfold isDigit at hb
            unfold isSpace
            simp only [Bool.and_eq_true, decide_eq_true_eq, UInt8.le_iff_toNat_le] at hb
            simp only [Bool.or_eq_false_iff, Bool.and_eq_false_iff, beq_eq_false_iff_ne, ne_eq,
              decide_eq_false_iff_not, UInt8.le_iff_toNat_le, ← UInt8.toNat_inj]
            simp only [UInt8.reduceToNat] at hb ⊢
            omega
          have hminus : b ≠ 45 := by rintro rfl; exact absurd hb (by decide)
          have hplus : b ≠ 43 := by rintro rfl; exact absurd hb (by decide)
          rw [hdigits] at htake hvalue
          simp only [decimal, hdigits, strtol, List.cons_append, List.dropWhile_cons, hspace,
            Bool.false_eq_true, if_false, hminus, hplus]
          rw [← List.cons_append, htake, hvalue]
          rfl
  | negSucc n =>
      have hspace : isSpace 45 = false := by decide
      simp only [decimal, strtol, List.cons_append, List.dropWhile_cons, hspace,
        Bool.false_eq_true, if_false, if_true, takeWhile_decimalNat _ hrest,
        digitsValue_decimalNat]
      omega

theorem strtol_decimal_nil (i : ℤ) : strtol (decimal i) = i := by
  have hrest : EndsNumber [] := by simp [EndsNumber]
  simpa using strtol_decimal i hrest

/-- `%d` is injective. -/
theorem decimal_injective : Function.Injective decimal := by
  intro i j hij
  rw [← strtol_decimal_nil i, hij, strtol_decimal_nil]

/-- `atoi` reads back a printed `int`, whatever follows it. -/
theorem atoi_decimal_append {i : ℤ} (hi : InInt i) {rest : Bytes} (hrest : EndsNumber rest) :
    atoi (decimal i ++ rest) = i := by
  have hrange := hi
  unfold InInt at hrange
  unfold atoi
  rw [strtol_decimal i hrest, min_eq_right (by omega), max_eq_right (by omega)]
  exact int32_of_range hi

theorem atoi_decimal {i : ℤ} (hi : InInt i) : atoi (decimal i) = i := by
  have hrest : EndsNumber [] := by simp [EndsNumber]
  simpa using atoi_decimal_append hi hrest

/-- Every byte of a printed number is a digit or the minus sign. -/
theorem of_mem_decimal {i : ℤ} {b : UInt8} (hb : b ∈ decimal i) : b = 45 ∨ isDigit b = true := by
  cases i with
  | ofNat n => exact Or.inr (isDigit_of_mem_decimalNat hb)
  | negSucc n =>
      rcases List.mem_cons.mp hb with rfl | hb
      · exact Or.inl rfl
      · exact Or.inr (isDigit_of_mem_decimalNat hb)

theorem not_mem_decimal {i : ℤ} {b : UInt8} (hminus : b ≠ 45) (hdigit : isDigit b = false) :
    b ∉ decimal i := by
  intro hb
  rcases of_mem_decimal hb with rfl | h
  · exact hminus rfl
  · rw [h] at hdigit
    exact Bool.noConfusion hdigit

/-! ## Splitting at a separator -/

/-- The fields of a string between the occurrences of `sep`. -/
def fields (sep : UInt8) : Bytes → List Bytes
  | [] => [[]]
  | b :: rest =>
      if b = sep then [] :: fields sep rest
      else match fields sep rest with
        | [] => [[b]]
        | field :: more => (b :: field) :: more

theorem fields_ne_nil (sep : UInt8) (s : Bytes) : fields sep s ≠ [] := by
  cases s with
  | nil => simp [fields]
  | cons b rest =>
      simp only [fields]
      split
      · simp
      · split <;> simp

theorem fields_of_not_mem {sep : UInt8} {s : Bytes} (hs : sep ∉ s) : fields sep s = [s] := by
  induction s with
  | nil => rfl
  | cons b rest ih =>
      obtain ⟨hb, hrest⟩ := not_or.mp (mt List.mem_cons.mpr hs)
      simp only [fields, if_neg (Ne.symm hb), ih hrest]

/-- Splitting a concatenation at a separator splits the two parts. -/
theorem fields_append_sep (sep : UInt8) (s t : Bytes) :
    fields sep (s ++ sep :: t) = fields sep s ++ fields sep t := by
  induction s with
  | nil => simp [fields]
  | cons b rest ih =>
      simp only [List.cons_append, fields]
      split
      · rw [ih]; rfl
      · rw [ih]
        cases hfields : fields sep rest with
        | nil => exact absurd hfields (fields_ne_nil sep rest)
        | cons field more => rfl

/-- A string is its fields, a separator after each but the last. -/
theorem flatten_fields (sep : UInt8) (s : Bytes) :
    ((fields sep s).map (· ++ [sep])).flatten = s ++ [sep] := by
  induction s with
  | nil => rfl
  | cons b rest ih =>
      simp only [fields]
      split
      · next hb => rw [List.map_cons, List.flatten_cons, ih, hb, List.nil_append,
          List.singleton_append, List.cons_append]
      · cases hfields : fields sep rest with
        | nil => exact absurd hfields (fields_ne_nil sep rest)
        | cons field more =>
            rw [hfields] at ih
            exact congrArg (b :: ·) ih

/-- What stands before the first separator is determined. -/
theorem append_sep_inj {sep : UInt8} {s s' t t' : Bytes} (hs : sep ∉ s) (hs' : sep ∉ s')
    (h : s ++ sep :: t = s' ++ sep :: t') : s = s' ∧ t = t' := by
  have hfields := congrArg (fields sep) h
  rw [fields_append_sep, fields_append_sep, fields_of_not_mem hs, fields_of_not_mem hs'] at hfields
  obtain rfl := (List.cons.inj hfields).1
  exact ⟨rfl, (List.cons.inj (List.append_cancel_left h)).2⟩

/-- What stands after the last separator is determined. -/
theorem sep_append_inj {sep : UInt8} {s s' t t' : Bytes} (ht : sep ∉ t) (ht' : sep ∉ t')
    (h : s ++ sep :: t = s' ++ sep :: t') : s = s' ∧ t = t' := by
  have hreverse := congrArg List.reverse h
  rw [List.reverse_append, List.reverse_append, List.reverse_cons, List.reverse_cons,
    List.append_assoc, List.append_assoc, List.singleton_append, List.singleton_append] at hreverse
  obtain ⟨ht, hs⟩ := append_sep_inj (mt List.mem_reverse.mp ht) (mt List.mem_reverse.mp ht') hreverse
  exact ⟨List.reverse_inj.mp hs, List.reverse_inj.mp ht⟩

/-- The byte stands at the end and nowhere else. -/
def EndsIn (sep : UInt8) (s : Bytes) : Prop := ∃ body, sep ∉ body ∧ s = body ++ [sep]

/-- Pieces that end in a separator are determined by the text they are the front of. -/
theorem eq_of_flatten_prefix {sep : UInt8} {xs ys : List Bytes} {more : Bytes}
    (hlength : xs.length = ys.length) (hxs : ∀ x ∈ xs, EndsIn sep x) (hys : ∀ y ∈ ys, EndsIn sep y)
    (h : xs.flatten <+: ys.flatten ++ more) : xs = ys := by
  induction xs generalizing ys with
  | nil => exact (List.length_eq_zero_iff.mp hlength.symm).symm
  | cons x xs ih =>
      cases ys with
      | nil => exact absurd hlength (Nat.succ_ne_zero _)
      | cons y ys =>
          obtain ⟨body, hbody, rfl⟩ := hxs x List.mem_cons_self
          obtain ⟨body', hbody', rfl⟩ := hys y List.mem_cons_self
          obtain ⟨rest, hrest⟩ := h
          simp only [List.flatten_cons, List.append_assoc, List.singleton_append] at hrest
          obtain ⟨rfl, htail⟩ := append_sep_inj hbody hbody' hrest
          have hsame := ih (Nat.succ.inj hlength) (fun x hx => hxs x (List.mem_cons_of_mem _ hx))
            (fun y hy => hys y (List.mem_cons_of_mem _ hy)) ⟨rest, htail⟩
          rw [hsame]

theorem not_mem_of_mem_fields {sep : UInt8} {s field : Bytes} (hfield : field ∈ fields sep s) :
    sep ∉ field := by
  induction s generalizing field with
  | nil => simp [fields] at hfield; simp [hfield]
  | cons b rest ih =>
      simp only [fields] at hfield
      split at hfield
      · rcases List.mem_cons.mp hfield with rfl | hfield
        · simp
        · exact ih hfield
      · next hb =>
        cases hfields : fields sep rest with
        | nil => exact absurd hfields (fields_ne_nil sep rest)
        | cons head more =>
            rw [hfields] at hfield ih
            rcases List.mem_cons.mp hfield with rfl | hfield
            · simp only [List.mem_cons, not_or]
              exact ⟨Ne.symm hb, ih (List.mem_cons_self ..)⟩
            · exact ih (List.mem_cons_of_mem _ hfield)

/-- The bytes of the fields are bytes of the string. -/
theorem mem_of_mem_fields {sep b : UInt8} {s field : Bytes} (hfield : field ∈ fields sep s)
    (hb : b ∈ field) : b ∈ s := by
  have hmem : b ∈ s ++ [sep] := by
    rw [← flatten_fields]
    exact List.mem_flatten.mpr
      ⟨field ++ [sep], List.mem_map_of_mem hfield, List.mem_append_left _ hb⟩
  rcases List.mem_append.mp hmem with h | h
  · exact h
  · rw [List.mem_singleton.mp h] at hb
    exact absurd hb (not_mem_of_mem_fields hfield)

theorem length_le_of_mem_fields {sep : UInt8} {s field : Bytes} (hfield : field ∈ fields sep s) :
    field.length ≤ s.length := by
  induction s generalizing field with
  | nil => rw [List.mem_singleton.mp hfield]
  | cons b rest ih =>
      rw [List.length_cons]
      simp only [fields] at hfield
      split at hfield
      · rcases List.mem_cons.mp hfield with rfl | hfield
        · exact Nat.zero_le _
        · exact (ih hfield).trans (Nat.le_succ _)
      · cases hfields : fields sep rest with
        | nil => exact absurd hfields (fields_ne_nil sep rest)
        | cons head more =>
            rw [hfields] at hfield ih
            rcases List.mem_cons.mp hfield with rfl | hfield
            · exact Nat.succ_le_succ (ih (List.mem_cons_self ..))
            · exact (ih (List.mem_cons_of_mem _ hfield)).trans (Nat.le_succ _)

/-! ## `strtok_r` -/

/-- `strtok_r` with one delimiter: skip delimiters, take the bytes up to the
next one, and leave what follows it for the next call. -/
def strtok (delim : UInt8) (s : Bytes) : Option (Bytes × Bytes) :=
  let rest := s.dropWhile (· == delim)
  if rest = [] then none
  else some (rest.takeWhile (· != delim), (rest.dropWhile (· != delim)).drop 1)

/-- The tokens of a string: its non-empty fields. -/
def tokens (delim : UInt8) (s : Bytes) : List Bytes := (fields delim s).filter (!·.isEmpty)

theorem tokens_dropWhile (delim : UInt8) (s : Bytes) :
    tokens delim (s.dropWhile (· == delim)) = tokens delim s := by
  induction s with
  | nil => rfl
  | cons b rest ih =>
      by_cases hb : b = delim
      · subst hb
        simp only [List.dropWhile_cons, beq_self_eq_true, if_true]
        rw [ih]
        simp [tokens, fields]
      · simp [hb]

theorem tokens_append_sep (delim : UInt8) (s t : Bytes) :
    tokens delim (s ++ delim :: t) = tokens delim s ++ tokens delim t := by
  unfold tokens
  rw [fields_append_sep, List.filter_append]

theorem tokens_of_not_mem {delim : UInt8} {s : Bytes} (hs : delim ∉ s) (hne : s ≠ []) :
    tokens delim s = [s] := by
  unfold tokens
  rw [fields_of_not_mem hs]
  cases s with
  | nil => exact absurd rfl hne
  | cons b rest => rfl

/-- What is appended lengthens the first field or adds to the others. -/
private theorem fields_append {delim : UInt8} {s head : Bytes} {tail : List Bytes}
    (hs : fields delim s = head :: tail) (t : Bytes) :
    ∃ head' tail', fields delim (s ++ t) = head' :: tail' ∧ (head ≠ [] → head' ≠ []) ∧
      (tail.filter (!·.isEmpty)).length ≤ (tail'.filter (!·.isEmpty)).length := by
  induction s generalizing head tail with
  | nil =>
      obtain ⟨rfl, rfl⟩ := List.cons.inj hs
      cases ht : fields delim t with
      | nil => exact absurd ht (fields_ne_nil delim t)
      | cons first more => exact ⟨first, more, ht, fun h => absurd rfl h, Nat.zero_le _⟩
  | cons b rest ih =>
      cases hrest : fields delim rest with
      | nil => exact absurd hrest (fields_ne_nil delim rest)
      | cons first more =>
          obtain ⟨first', more', hfields, hfirst, hmore⟩ := ih hrest
          simp only [List.cons_append, fields, hrest, hfields] at hs ⊢
          split at hs
          · next hb =>
            obtain ⟨rfl, rfl⟩ := List.cons.inj hs
            rw [if_pos hb]
            refine ⟨_, _, rfl, fun h => absurd rfl h, ?_⟩
            cases first with
            | nil =>
                refine hmore.trans (List.Sublist.length_le ?_)
                exact (List.sublist_cons_self first' more').filter _
            | cons c cs =>
                rw [List.filter_cons_of_pos (by simp),
                  List.filter_cons_of_pos (by simpa using hfirst (List.cons_ne_nil c cs))]
                exact Nat.succ_le_succ hmore
          · next hb =>
            obtain ⟨rfl, rfl⟩ := List.cons.inj hs
            rw [if_neg hb]
            exact ⟨_, _, rfl, fun _ => List.cons_ne_nil _ _, hmore⟩

/-- What is appended takes no token away. -/
theorem tokens_length_le_append (delim : UInt8) (s t : Bytes) :
    (tokens delim s).length ≤ (tokens delim (s ++ t)).length := by
  cases hs : fields delim s with
  | nil => exact absurd hs (fields_ne_nil delim s)
  | cons head tail =>
      obtain ⟨head', tail', ht, hhead, htail⟩ := fields_append hs t
      simp only [tokens, hs, ht]
      cases head with
      | nil =>
          refine htail.trans (List.Sublist.length_le ?_)
          exact (List.sublist_cons_self head' tail').filter _
      | cons c cs =>
          rw [List.filter_cons_of_pos (by simp),
            List.filter_cons_of_pos (by simpa using hhead (List.cons_ne_nil c cs))]
          exact Nat.succ_le_succ htail

theorem not_mem_takeWhile (delim : UInt8) (s : Bytes) : delim ∉ s.takeWhile (· != delim) := by
  intro hmem
  simpa using List.all_takeWhile (p := (· != delim)) (l := s) |> fun h =>
    List.all_eq_true.mp h delim hmem

private theorem tokens_split (delim : UInt8) (s : Bytes) (hne : s.takeWhile (· != delim) ≠ []) :
    tokens delim s =
      s.takeWhile (· != delim) :: tokens delim ((s.dropWhile (· != delim)).drop 1) := by
  have hnot := not_mem_takeWhile delim s
  have hsplit := List.takeWhile_append_dropWhile (p := (· != delim)) (l := s)
  cases hdrop : s.dropWhile (· != delim) with
  | nil =>
      rw [hdrop, List.append_nil] at hsplit
      calc tokens delim s = tokens delim (s.takeWhile (· != delim)) := by rw [hsplit]
        _ = [s.takeWhile (· != delim)] := tokens_of_not_mem hnot hne
  | cons b rest =>
      have hb : b = delim := by
        have hhead := List.head?_dropWhile_not (· != delim) s
        rw [hdrop] at hhead
        simpa using hhead
      subst hb
      rw [hdrop] at hsplit
      calc tokens b s = tokens b (s.takeWhile (· != b) ++ b :: rest) := by rw [hsplit]
        _ = s.takeWhile (· != b) :: tokens b rest := by
            rw [tokens_append_sep, tokens_of_not_mem hnot hne]
            rfl

/-- `strtok_r` finds nothing exactly when there is no token. -/
theorem strtok_eq_none {delim : UInt8} {s : Bytes} (h : strtok delim s = none) :
    tokens delim s = [] := by
  unfold strtok at h
  simp only [ite_eq_left_iff, reduceCtorEq, imp_false, not_not] at h
  rw [← tokens_dropWhile, h]
  rfl

/-- `strtok_r` finds the first token and leaves the others. -/
theorem strtok_eq_some {delim : UInt8} {s token rest : Bytes}
    (h : strtok delim s = some (token, rest)) :
    tokens delim s = token :: tokens delim rest := by
  unfold strtok at h
  simp only [Option.ite_none_left_eq_some, Option.some.injEq, Prod.mk.injEq] at h
  obtain ⟨hne, rfl, rfl⟩ := h
  rw [← tokens_dropWhile delim s]
  apply tokens_split
  have hhead := List.head?_dropWhile_not (· == delim) s
  cases hdrop : s.dropWhile (· == delim) with
  | nil => exact absurd hdrop hne
  | cons b more =>
      rw [hdrop] at hhead
      simp only [List.head?_cons, beq_eq_false_iff_ne, ne_eq] at hhead
      simp [hhead]

theorem mem_of_mem_tokens {delim b : UInt8} {s token : Bytes} (h : token ∈ tokens delim s)
    (hb : b ∈ token) : b ∈ s :=
  mem_of_mem_fields (List.mem_filter.mp h).1 hb

/-- Tokens hold no separator and are not empty. -/
theorem of_mem_tokens {delim : UInt8} {s token : Bytes} (h : token ∈ tokens delim s) :
    delim ∉ token ∧ token ≠ [] := by
  obtain ⟨hmem, hne⟩ := List.mem_filter.mp h
  exact ⟨not_mem_of_mem_fields hmem, by simpa using hne⟩

end CText
