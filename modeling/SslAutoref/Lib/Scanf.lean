import Mathlib.Algebra.Group.Int.Defs
import Mathlib.Algebra.Group.Nat.Defs
import Mathlib.Data.List.Basic
import Mathlib.Data.List.Induction
import Mathlib.Data.List.TakeWhile

/-!
# Formatted text

The conversions of `scanf` and `printf` an annotation file needs, and `atoi`, over a
text of bytes: white space, decimal integers with a sign, and words, each of at most
a given width. A conversion gives the value and the text that follows it, or
nothing when it does not match; one that matches takes at least one byte
(`length_of_scanAs`, `length_of_scanWord`).
-/

namespace Scanf

/-- `isspace` in the C locale. -/
def isSpace (c : Char) : Bool := c == ' ' || (9 ≤ c.toNat && c.toNat ≤ 13)

/-- White space in a format: any amount of it, also none. -/
def skipSpace (text : List Char) : List Char := text.dropWhile isSpace

/-- The part of a text a conversion of at most `width` bytes may look at. -/
def field (width : Option Nat) (text : List Char) : List Char :=
  match width with
  | none => text
  | some w => text.take w

/-- A leading sign, whether it is a minus, and the rest. -/
def splitSign : List Char → Bool × List Char
  | '-' :: text => (true, text)
  | '+' :: text => (false, text)
  | text => (false, text)

/-- The number some decimal digits spell. -/
def digitsValue (digits : List Char) : Nat :=
  digits.foldl (fun n c => 10 * n + (c.toNat - 48)) 0

/-- The numeral a text begins with, and how many bytes it has. -/
def numeral (text : List Char) : Option (Int × Nat) :=
  let (negative, body) := splitSign text
  let digits := body.takeWhile Char.isDigit
  if digits = [] then none
  else
    some (if negative then -digitsValue digits else digitsValue digits,
      text.length - body.length + digits.length)

/-- The integer conversions, before the value is stored. -/
def scanInt (width : Option Nat) (text : List Char) : Option (Int × List Char) :=
  (numeral (field width (skipSpace text))).map fun (z, used) =>
    (z, (skipSpace text).drop used)

/-- `%s` with a width. -/
def scanWord (width : Nat) (text : List Char) : Option (List Char × List Char) :=
  let word := ((skipSpace text).take width).takeWhile fun c => !isSpace c
  if word = [] then none else some (word, (skipSpace text).drop word.length)

/-- `strtol`, stored in an `int`: clamped to 64 bits, then cut to 32. -/
def toInt32 (z : Int) : Int32 := Int32.ofInt (max (-2 ^ 63) (min z (2 ^ 63 - 1)))

/-- `strtoul`: a minus sign negates modulo `2 ^ 64`, a number that is too large
gives the largest value. -/
def toUInt64 (z : Int) : UInt64 :=
  if 2 ^ 64 ≤ z.natAbs then UInt64.ofNat (2 ^ 64 - 1) else UInt64.ofNat (z % 2 ^ 64).toNat

/-- The same, cut to 32 bits. -/
def toUInt32 (z : Int) : UInt32 := (toUInt64 z).toUInt32

/-- An integer conversion that stores its value: `%d` with `toInt32`, `%lu` with
`toUInt64` and `%u` with `toUInt32`. -/
def scanAs {β : Type} (store : Int → β) (width : Option Nat) (text : List Char) :
    Option (β × List Char) :=
  (scanInt width text).map fun (z, rest) => (store z, rest)

/-- `atoi`: the number a text begins with after white space, and zero when it begins with
none. -/
def atoi (text : List Char) : Int32 :=
  match numeral (skipSpace text) with
  | none => 0
  | some (z, _) => toInt32 z

/-- `%u` and `%lu` of `printf`, and `%d` of a number that is not negative. -/
def decimal (n : Nat) : List Char := Nat.toDigits 10 n

/-- A conversion of `printf` of at least `width` bytes. -/
def padded (width : Nat) (text : List Char) : List Char := text.leftpad width ' '

/-! ## What a conversion consumes -/

theorem length_skipSpace_le (text : List Char) : (skipSpace text).length ≤ text.length :=
  (List.dropWhile_sublist _).length_le

/-- A numeral has at least one byte. -/
theorem used_pos_of_numeral {text : List Char} {z : Int} {used : Nat}
    (h : numeral text = some (z, used)) : 0 < used := by
  unfold numeral at h
  split at h
  rename_i negative body _
  dsimp only at h
  split at h
  · cases h
  · rename_i hdigits
    have hpos := List.length_pos_iff.mpr hdigits
    obtain ⟨-, rfl⟩ := Prod.mk.inj (Option.some.inj h)
    omega

/-- An empty text has no numeral. -/
theorem numeral_nil : numeral [] = none := rfl

theorem length_of_scanInt {width : Option Nat} {text rest : List Char} {z : Int}
    (h : scanInt width text = some (z, rest)) : rest.length < text.length := by
  unfold scanInt at h
  obtain ⟨⟨z', used⟩, hnumeral, heq⟩ := Option.map_eq_some_iff.mp h
  obtain ⟨-, rfl⟩ := Prod.mk.inj heq
  have hused := used_pos_of_numeral hnumeral
  have hne : 0 < (skipSpace text).length := by
    cases hskip : skipSpace text with
    | nil =>
      rw [hskip] at hnumeral
      cases width <;> simp [field, numeral_nil] at hnumeral
    | cons c cs => exact Nat.succ_pos _
  have hle := length_skipSpace_le text
  rw [List.length_drop]
  omega

theorem length_of_scanAs {β : Type} {store : Int → β} {width : Option Nat}
    {text rest : List Char} {x : β} (h : scanAs store width text = some (x, rest)) :
    rest.length < text.length := by
  obtain ⟨⟨z, rest'⟩, hscan, heq⟩ := Option.map_eq_some_iff.mp h
  obtain ⟨-, rfl⟩ := Prod.mk.inj heq
  exact length_of_scanInt hscan

theorem length_of_scanWord {width : Nat} {text word rest : List Char}
    (h : scanWord width text = some (word, rest)) : rest.length < text.length := by
  unfold scanWord at h
  dsimp only at h
  split at h
  · cases h
  · rename_i hword
    have hpos := List.length_pos_iff.mpr hword
    have hle : (((skipSpace text).take width).takeWhile fun c => !isSpace c).length ≤
        (skipSpace text).length :=
      Nat.le_trans (List.takeWhile_sublist _).length_le (List.length_take_le' width _)
    have hskip := length_skipSpace_le text
    obtain ⟨-, rfl⟩ := Prod.mk.inj (Option.some.inj h)
    rw [List.length_drop]
    omega

/-! ## Reading what was printed -/

@[simp] theorem skipSpace_nil : skipSpace [] = [] := rfl

theorem skipSpace_cons_of_space {c : Char} (h : isSpace c = true) (text : List Char) :
    skipSpace (c :: text) = skipSpace text :=
  List.dropWhile_cons_of_pos h

theorem skipSpace_cons {c : Char} (h : isSpace c = false) (text : List Char) :
    skipSpace (c :: text) = c :: text :=
  List.dropWhile_cons_of_neg (by rw [h]; exact Bool.false_ne_true)

@[simp] theorem skipSpace_skipSpace (text : List Char) :
    skipSpace (skipSpace text) = skipSpace text := by
  induction text with
  | nil => rfl
  | cons c text ih =>
    cases hc : isSpace c with
    | true =>
      rw [skipSpace_cons_of_space hc]
      exact ih
    | false => rw [skipSpace_cons hc, skipSpace_cons hc]

/-- Every conversion skips white space by itself. -/
theorem scanAs_skipSpace {β : Type} (store : Int → β) (width : Option Nat)
    (text : List Char) : scanAs store width (skipSpace text) = scanAs store width text := by
  unfold scanAs scanInt
  rw [skipSpace_skipSpace]

theorem scanAs_space {β : Type} (store : Int → β) (width : Option Nat) (text : List Char) :
    scanAs store width (' ' :: text) = scanAs store width text := by
  have hskip : skipSpace (' ' :: text) = skipSpace text := skipSpace_cons_of_space rfl text
  rw [← scanAs_skipSpace, hskip, scanAs_skipSpace]

/-- The padding in front of a number is skipped. -/
theorem scanAs_padded {β : Type} (store : Int → β) (width : Option Nat) (w : Nat)
    (digits rest : List Char) :
    scanAs store width (padded w digits ++ rest) = scanAs store width (digits ++ rest) := by
  show scanAs store width (List.replicate (w - digits.length) ' ' ++ digits ++ rest) = _
  induction w - digits.length with
  | zero => rfl
  | succ k ih =>
    rw [List.replicate_succ, List.cons_append, List.cons_append, scanAs_space]
    exact ih

theorem isDigit_of_mem_decimal {n : Nat} {c : Char} (h : c ∈ decimal n) : c.isDigit = true :=
  Nat.isDigit_of_mem_toDigits (Nat.succ_pos 9) (Nat.le_refl 10) h

theorem decimal_ne_nil (n : Nat) : decimal n ≠ [] := Nat.toDigits_ne_nil

theorem digitsValue_decimal (n : Nat) : digitsValue (decimal n) = n :=
  Nat.ofDigitChars_ten_toDigits

/-- A digit is no white space, and no sign. -/
theorem not_space_of_isDigit {c : Char} (h : c.isDigit = true) :
    isSpace c = false ∧ c ≠ '-' ∧ c ≠ '+' := by
  have hrange : 48 ≤ c.toNat ∧ c.toNat ≤ 57 := by
    simpa [Char.isDigit, UInt32.le_iff_toNat_le] using h
  refine ⟨?_, ?_, ?_⟩
  · have hne : c ≠ ' ' := by
      rintro rfl
      exact absurd hrange.1 (by decide)
    have hhigh : ¬ c.toNat ≤ 13 := by omega
    simp [isSpace, hne, hhigh]
  · rintro rfl
    exact absurd hrange.1 (by decide)
  · rintro rfl
    exact absurd hrange.1 (by decide)

/-- A text that does not go on with a digit. -/
def NoDigit (text : List Char) : Prop := ∀ c ∈ text.head?, c.isDigit = false

theorem noDigit_nil : NoDigit [] := nofun

theorem noDigit_space (text : List Char) : NoDigit (' ' :: text) := by
  intro c hc
  obtain rfl := Option.some.inj hc
  rfl

theorem noDigit_newline (text : List Char) : NoDigit ('\n' :: text) := by
  intro c hc
  obtain rfl := Option.some.inj hc
  rfl

theorem NoDigit.take {text : List Char} (h : NoDigit text) (n : Nat) :
    NoDigit (text.take n) := by
  cases text with
  | nil => rwa [List.take_nil]
  | cons c text =>
    cases n with
    | zero => exact noDigit_nil
    | succ n => exact h

theorem takeWhile_isDigit_append {digits rest : List Char}
    (hdigits : ∀ c ∈ digits, c.isDigit = true) (hrest : NoDigit rest) :
    (digits ++ rest).takeWhile Char.isDigit = digits := by
  rw [List.takeWhile_append_of_pos hdigits]
  cases rest with
  | nil => exact List.append_nil _
  | cons c rest =>
    have hc : c.isDigit = false := hrest c rfl
    rw [List.takeWhile_cons_of_neg (by rw [hc]; exact Bool.false_ne_true), List.append_nil]

/-- The numeral at the beginning of a text is what its digits spell. -/
theorem numeral_digits {digits rest : List Char} (hne : digits ≠ [])
    (hdigits : ∀ c ∈ digits, c.isDigit = true) (hrest : NoDigit rest) :
    numeral (digits ++ rest) = some ((digitsValue digits : Int), digits.length) := by
  have htake : (digits ++ rest).takeWhile Char.isDigit = digits :=
    takeWhile_isDigit_append hdigits hrest
  have hsign : splitSign (digits ++ rest) = (false, digits ++ rest) := by
    cases digits with
    | nil => exact absurd rfl hne
    | cons c cs =>
      obtain ⟨-, hminus, hplus⟩ := not_space_of_isDigit (hdigits c List.mem_cons_self)
      rw [List.cons_append]
      unfold splitSign
      split
      · rename_i heq
        exact absurd (List.cons.inj heq).1 hminus
      · rename_i heq
        exact absurd (List.cons.inj heq).1 hplus
      · rfl
  unfold numeral
  rw [hsign]
  dsimp only
  rw [htake, if_neg hne, Nat.sub_self, Nat.zero_add]
  rfl

theorem numeral_decimal (n : Nat) {rest : List Char} (hrest : NoDigit rest) :
    numeral (decimal n ++ rest) = some ((n : Int), (decimal n).length) := by
  rw [numeral_digits (decimal_ne_nil n) (fun c hc => isDigit_of_mem_decimal hc) hrest,
    digitsValue_decimal]

theorem skipSpace_digits {digits : List Char} (hne : digits ≠ [])
    (hdigits : ∀ c ∈ digits, c.isDigit = true) (rest : List Char) :
    skipSpace (digits ++ rest) = digits ++ rest := by
  cases digits with
  | nil => exact absurd rfl hne
  | cons c cs => exact skipSpace_cons (not_space_of_isDigit (hdigits c List.mem_cons_self)).1 _

/-- A number of decimal digits is read by `atoi`, while it fits an `int`. -/
theorem toInt_atoi {digits : List Char} (hne : digits ≠ [])
    (hdigits : ∀ c ∈ digits, c.isDigit = true) (hfits : digitsValue digits < 2 ^ 31) :
    (atoi digits).toInt = digitsValue digits := by
  have hskip := skipSpace_digits hne hdigits []
  have hnumeral := numeral_digits hne hdigits noDigit_nil
  rw [List.append_nil] at hskip hnumeral
  unfold atoi toInt32
  rw [hskip, hnumeral]
  dsimp only
  rw [Int32.toInt_ofInt]
  have hclamp : max (-2 ^ 63 : Int) (min (digitsValue digits) (2 ^ 63 - 1)) =
      digitsValue digits := by omega
  rw [hclamp]
  exact Int.bmod_eq_of_le (by simp only [Int32.size]; omega) (by simp only [Int32.size]; omega)

theorem skipSpace_decimal (n : Nat) (rest : List Char) :
    skipSpace (decimal n ++ rest) = decimal n ++ rest :=
  skipSpace_digits (decimal_ne_nil n) (fun _ hc => isDigit_of_mem_decimal hc) rest

/-- **A number is read back** by a conversion that is wide enough for its digits. -/
theorem scanAs_decimal {β : Type} (store : Int → β) {width : Option Nat} (n : Nat)
    {rest : List Char} (hwidth : ∀ w ∈ width, (decimal n).length ≤ w) (hrest : NoDigit rest) :
    scanAs store width (decimal n ++ rest) = some (store n, rest) := by
  have hfield : numeral (field width (decimal n ++ rest)) =
      some ((n : Int), (decimal n).length) := by
    cases width with
    | none => exact numeral_decimal n hrest
    | some w =>
      show numeral ((decimal n ++ rest).take w) = _
      rw [List.take_append, List.take_of_length_le (hwidth w rfl)]
      exact numeral_decimal n (hrest.take _)
  unfold scanAs scanInt
  rw [skipSpace_decimal, hfield]
  show some (store n, (decimal n ++ rest).drop (decimal n).length) = _
  rw [List.drop_left' rfl]

theorem length_decimal_le {n k : Nat} (hk : 0 < k) (h : n < 10 ^ k) : (decimal n).length ≤ k :=
  (Nat.length_toDigits_le_iff (Nat.succ_lt_succ (Nat.succ_pos 8)) hk).mpr h

theorem scanWord_space (width : Nat) (text : List Char) :
    scanWord width (' ' :: text) = scanWord width text := by
  have hskip : skipSpace (' ' :: text) = skipSpace text := skipSpace_cons_of_space rfl text
  unfold scanWord
  rw [hskip]

/-- A word is read back by a conversion that is wide enough for it. -/
theorem scanWord_append {width : Nat} {word : List Char} (hne : word ≠ [])
    (hword : ∀ c ∈ word, isSpace c = false) (hwidth : word.length ≤ width)
    (rest : List Char) :
    scanWord width (word ++ ' ' :: rest) = some (word, ' ' :: rest) := by
  have hskip : skipSpace (word ++ ' ' :: rest) = word ++ ' ' :: rest := by
    cases word with
    | nil => exact absurd rfl hne
    | cons c word => exact skipSpace_cons (hword c List.mem_cons_self) _
  have htake : ((word ++ ' ' :: rest).take width).takeWhile (fun c => !isSpace c) = word := by
    rw [List.take_append, List.take_of_length_le hwidth, List.takeWhile_append_of_pos]
    · cases width - word.length with
      | zero => exact List.append_nil word
      | succ k => exact List.append_nil word
    · intro c hc
      rw [hword c hc]
      rfl
  unfold scanWord
  rw [hskip]
  dsimp only
  rw [htake, if_neg hne, List.drop_left' rfl]

/-! ## What is stored -/

theorem toInt_toInt32 {z : Int} (hlow : -2 ^ 31 ≤ z) (hhigh : z < 2 ^ 31) :
    (toInt32 z).toInt = z := by
  have hclamp : max (-2 ^ 63) (min z (2 ^ 63 - 1)) = z := by omega
  rw [toInt32, hclamp]
  exact Int32.toInt_ofInt_of_le hlow hhigh

theorem toUInt64_toNat (x : UInt64) : toUInt64 x.toNat = x := by
  have hlt := x.toNat_lt
  have hmod : ((x.toNat : Int) % 2 ^ 64).toNat = x.toNat := by omega
  rw [toUInt64, if_neg (by rw [Int.natAbs_natCast]; omega), hmod]
  exact UInt64.ofNat_toNat

theorem toUInt32_toNat (x : UInt32) : toUInt32 x.toNat = x := by
  have hlt := x.toNat_lt
  have hwide : toUInt64 x.toNat = x.toUInt64 := by
    rw [← UInt32.toNat_toUInt64]
    exact toUInt64_toNat x.toUInt64
  rw [toUInt32, hwide]
  exact UInt32.toUInt32_toUInt64 x

/-! ## What fits a width -/

theorem digitsValue_lt (digits : List Char) (h : ∀ c ∈ digits, c.isDigit = true) :
    digitsValue digits < 10 ^ digits.length := by
  induction digits using List.reverseRecOn with
  | nil => exact Nat.one_pos
  | append_singleton digits c ih =>
    have hc : c.isDigit = true := h c (List.mem_append_right _ List.mem_cons_self)
    have hrange : 48 ≤ c.toNat ∧ c.toNat ≤ 57 := by
      simpa [Char.isDigit, UInt32.le_iff_toNat_le] using hc
    have hrest := ih fun d hd => h d (List.mem_append_left _ hd)
    have hvalue : digitsValue (digits ++ [c]) = 10 * digitsValue digits + (c.toNat - 48) := by
      rw [digitsValue, List.foldl_append]
      rfl
    rw [hvalue, List.length_append, List.length_singleton, Nat.pow_succ]
    omega

theorem length_splitSign_le (text : List Char) :
    (splitSign text).2.length ≤ text.length := by
  unfold splitSign
  split
  · exact Nat.le_succ _
  · exact Nat.le_succ _
  · exact Nat.le_refl _

/-- A conversion of a width gives no number of more digits. -/
theorem natAbs_lt_of_scanInt {w : Nat} {text rest : List Char} {z : Int}
    (h : scanInt (some w) text = some (z, rest)) : z.natAbs < 10 ^ w := by
  unfold scanInt at h
  obtain ⟨⟨z', used⟩, hnumeral, heq⟩ := Option.map_eq_some_iff.mp h
  obtain ⟨rfl, -⟩ := Prod.mk.inj heq
  have hfield : (field (some w) (skipSpace text)).length ≤ w := List.length_take_le _ _
  have hbody := length_splitSign_le (field (some w) (skipSpace text))
  unfold numeral at hnumeral
  dsimp only at hnumeral
  split at hnumeral
  · cases hnumeral
  · obtain ⟨rfl, -⟩ := Prod.mk.inj (Option.some.inj hnumeral)
    have hlt := digitsValue_lt
      ((splitSign (field (some w) (skipSpace text))).2.takeWhile Char.isDigit)
      fun c hc => List.mem_takeWhile_imp hc
    have hlen : ((splitSign (field (some w) (skipSpace text))).2.takeWhile
        Char.isDigit).length ≤ w :=
      Nat.le_trans (List.takeWhile_sublist _).length_le (Nat.le_trans hbody hfield)
    have hpow : 10 ^ ((splitSign (field (some w) (skipSpace text))).2.takeWhile
        Char.isDigit).length ≤ 10 ^ w := Nat.pow_le_pow_right (Nat.succ_pos 9) hlen
    split
    · rw [Int.natAbs_neg, Int.natAbs_natCast]
      omega
    · rw [Int.natAbs_natCast]
      omega

/-! ## Texts without a minus sign -/

theorem skipSpace_suffix (text : List Char) : skipSpace text <:+ text :=
  List.dropWhile_suffix _

/-- An integer conversion leaves an end of the text. -/
theorem suffix_of_scanAs {β : Type} {store : Int → β} {width : Option Nat}
    {text rest : List Char} {x : β} (h : scanAs store width text = some (x, rest)) :
    rest <:+ text := by
  obtain ⟨⟨z, rest'⟩, hscan, heq⟩ := Option.map_eq_some_iff.mp h
  obtain ⟨⟨z', used⟩, -, heq'⟩ := Option.map_eq_some_iff.mp hscan
  obtain ⟨-, rfl⟩ := Prod.mk.inj heq
  obtain ⟨-, rfl⟩ := Prod.mk.inj heq'
  exact (List.drop_suffix _ _).trans (skipSpace_suffix text)

theorem suffix_of_scanWord {width : Nat} {text word rest : List Char}
    (h : scanWord width text = some (word, rest)) : rest <:+ text := by
  unfold scanWord at h
  dsimp only at h
  split at h
  · cases h
  · obtain ⟨-, rfl⟩ := Prod.mk.inj (Option.some.inj h)
    exact (List.drop_suffix _ _).trans (skipSpace_suffix text)

theorem splitSign_of_not_mem {text : List Char} (h : '-' ∉ text) :
    (splitSign text).1 = false := by
  unfold splitSign
  split
  · exact absurd List.mem_cons_self h
  · rfl
  · rfl

/-- Without a minus sign a number is not negative. -/
theorem nonneg_of_scanInt {width : Option Nat} {text rest : List Char} {z : Int}
    (hminus : '-' ∉ text) (h : scanInt width text = some (z, rest)) : 0 ≤ z := by
  unfold scanInt at h
  obtain ⟨⟨z', used⟩, hnumeral, heq⟩ := Option.map_eq_some_iff.mp h
  obtain ⟨rfl, -⟩ := Prod.mk.inj heq
  have hfield : '-' ∉ field width (skipSpace text) := by
    intro hmem
    refine hminus ((skipSpace_suffix text).subset ?_)
    cases width with
    | none => exact hmem
    | some w => exact List.mem_of_mem_take hmem
  have hsign := splitSign_of_not_mem hfield
  unfold numeral at hnumeral
  dsimp only at hnumeral
  split at hnumeral
  · cases hnumeral
  · obtain ⟨rfl, -⟩ := Prod.mk.inj (Option.some.inj hnumeral)
    rw [hsign]
    exact Int.natCast_nonneg _

end Scanf
