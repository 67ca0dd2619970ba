import Mathlib.Data.List.TakeWhile
import Tsgit.Double
import Tsgit.Hex

/-!
# String Methods

The methods of strings that the object headers are read with: `lastIndexOf`, `trim`,
`split(/\s+/)`, and `Number`, whose answer is rounded to the nearest double.
-/

namespace Tsgit

open List

def lastIndexBefore (text : Text) (c : Char) : ℕ → Option ℕ
  | 0 => none
  | stop + 1 => if text[stop]? = some c then some stop else lastIndexBefore text c stop

def lastIndexOf (text : Text) (c : Char) : Option ℕ := lastIndexBefore text c text.length

def lastIndexOfUpTo (text : Text) (c : Char) (fromIndex : ℕ) : Option ℕ :=
  lastIndexBefore text c (fromIndex + 1)

/-- White space and line ends, as `trim` and `\s` take them. -/
def isWhitespace (c : Char) : Bool :=
  [0x09, 0x0a, 0x0b, 0x0c, 0x0d, 0x20, 0xa0, 0x1680, 0x2028, 0x2029, 0x202f, 0x205f, 0x3000,
    0xfeff].contains c.toNat || decide (0x2000 ≤ c.toNat ∧ c.toNat ≤ 0x200a)

def trim (text : Text) : Text :=
  ((text.dropWhile isWhitespace).reverse.dropWhile isWhitespace).reverse

def splitWhitespace (text : Text) : List Text :=
  let part := text.takeWhile (! isWhitespace ·)
  match _h : text.dropWhile (! isWhitespace ·) with
  | [] => [part]
  | _space :: rest => part :: splitWhitespace (rest.dropWhile isWhitespace)
termination_by text.length
decreasing_by
  have hrest := (dropWhile_sublist (! isWhitespace ·) : List.Sublist _ text).length_le
  have hmore := (dropWhile_sublist isWhitespace : List.Sublist _ rest).length_le
  rw [_h, length_cons] at hrest
  omega

/-! ### Numbers -/

def isDigit (c : Char) : Bool := decide ('0' ≤ c ∧ c ≤ '9')

/-- The exponent behind an `e`. -/
def exponentOf (text : Text) : Option ℤ :=
  let value (digits : Text) : Option ℤ :=
    if digits ≠ [] ∧ digits.all isDigit then some (Nat.ofDigitChars 10 digits 0) else none
  match text with
  | '+' :: digits => value digits
  | '-' :: digits => (value digits).map (- ·)
  | digits => value digits

/-- The value of an unsigned decimal literal. -/
def unsignedDecimal (text : Text) : Option ℚ :=
  let whole := text.takeWhile isDigit
  let (fraction, rest) := match text.dropWhile isDigit with
    | '.' :: rest => (rest.takeWhile isDigit, rest.dropWhile isDigit)
    | rest => ([], rest)
  let mantissa : ℚ := (Nat.ofDigitChars 10 (whole ++ fraction) 0 : ℚ) / 10 ^ fraction.length
  if whole = [] ∧ fraction = [] then none
  else match rest with
    | [] => some mantissa
    | 'e' :: exponent => (exponentOf exponent).map fun e => mantissa * 10 ^ e
    | 'E' :: exponent => (exponentOf exponent).map fun e => mantissa * 10 ^ e
    | _ => none

/-- The value of a digit below 36, in either case. -/
def digitOf (c : Char) : ℕ :=
  if isDigit c then c.toNat - 48
  else if 'a' ≤ c ∧ c ≤ 'z' then c.toNat - 87
  else if 'A' ≤ c ∧ c ≤ 'Z' then c.toNat - 55
  else 36

def digitsIn (base : ℕ) (digits : Text) : Option ℚ :=
  if digits ≠ [] ∧ digits.all (digitOf · < base) then
    some (digits.foldl (fun value digit => value * base + digitOf digit) 0 : ℕ)
  else none

/-- The exact value of a numeric literal; `none` for what is no number, and for infinities. -/
def numericLiteral (text : Text) : Option ℚ :=
  match trim text with
  | [] => some 0
  | '0' :: 'x' :: digits => digitsIn 16 digits
  | '0' :: 'X' :: digits => digitsIn 16 digits
  | '0' :: 'o' :: digits => digitsIn 8 digits
  | '0' :: 'O' :: digits => digitsIn 8 digits
  | '0' :: 'b' :: digits => digitsIn 2 digits
  | '0' :: 'B' :: digits => digitsIn 2 digits
  | '+' :: literal => unsignedDecimal literal
  | '-' :: literal => (unsignedDecimal literal).map (- ·)
  | literal => unsignedDecimal literal

def numberOf (text : Text) : Option ℚ := (numericLiteral text).map toDouble

/-- An integer in a template. -/
def decimalText (n : ℤ) : Text :=
  if n < 0 then '-' :: Nat.toDigits 10 n.natAbs else Nat.toDigits 10 n.natAbs

/-- **The last place** of a character that does not come again. -/
theorem lastIndexBefore_append {front back : Text} {c : Char} (hback : c ∉ back) {stop : ℕ}
    (hlower : front.length < stop) (hupper : stop ≤ front.length + 1 + back.length) :
    lastIndexBefore (front ++ c :: back) c stop = some front.length := by
  induction stop with
  | zero => omega
  | succ stop ih =>
    rw [lastIndexBefore]
    rcases Nat.lt_succ_iff_lt_or_eq.mp hlower with hlt | rfl
    · have hne : (front ++ c :: back)[stop]? ≠ some c := by
        obtain ⟨k, rfl⟩ : ∃ k, stop = front.length + (k + 1) :=
          ⟨stop - front.length - 1, by omega⟩
        rw [getElem?_append_right (Nat.le_add_right _ _), Nat.add_sub_cancel_left,
          getElem?_cons_succ]
        intro hget
        exact hback (mem_of_getElem? hget)
      rw [if_neg hne]
      exact ih hlt (by omega)
    · rw [getElem?_append_right le_rfl, Nat.sub_self, getElem?_cons_zero, if_pos rfl]

theorem lastIndexOf_append {front back : Text} {c : Char} (hback : c ∉ back) :
    lastIndexOf (front ++ c :: back) c = some front.length := by
  refine lastIndexBefore_append hback ?_ ?_
  · rw [length_append, length_cons]
    omega
  · rw [length_append, length_cons]
    omega

/-! ### Words -/

/-- A word has a character, and no white space. -/
structure IsWord (word : Text) : Prop where
  ne_nil : word ≠ []
  solid : ∀ c ∈ word, isWhitespace c = false

theorem isWord_of_all {word : Text} (hne : word ≠ [])
    (h : word.all (fun c => ! isWhitespace c) = true) : IsWord word :=
  ⟨hne, fun c hc => (Bool.not_eq_true' _).mp (all_eq_true.mp h c hc)⟩

section

variable {word rest : Text}

theorem IsWord.dropWhile_append (h : IsWord word) :
    (word ++ rest).dropWhile isWhitespace = word ++ rest := by
  cases word with
  | nil => exact absurd rfl h.ne_nil
  | cons c word =>
    exact dropWhile_cons_of_neg (Bool.eq_false_iff.mp (h.solid c mem_cons_self))

theorem IsWord.reverse (h : IsWord word) : IsWord word.reverse where
  ne_nil := reverse_ne_nil_iff.mpr h.ne_nil
  solid c hc := h.solid c (mem_reverse.mp hc)

theorem takeWhile_word_append {after : Text} (h : IsWord word)
    (hafter : ∀ c, after.head? = some c → isWhitespace c = true) :
    (word ++ after).takeWhile (! isWhitespace ·) = word ∧
      (word ++ after).dropWhile (! isWhitespace ·) = after := by
  have hall : ∀ c ∈ word, (! isWhitespace c) = true := fun c hc => by rw [h.solid c hc]; rfl
  rw [takeWhile_append_of_pos hall, dropWhile_append_of_pos hall]
  cases after with
  | nil => exact ⟨append_nil word, rfl⟩
  | cons c after =>
    have hspace := hafter c rfl
    rw [takeWhile_cons_of_neg (by rw [hspace]; exact Bool.false_ne_true),
      dropWhile_cons_of_neg (by rw [hspace]; exact Bool.false_ne_true)]
    exact ⟨append_nil word, rfl⟩

theorem trim_pair {word' : Text} (h : IsWord word) (h' : IsWord word') :
    trim (' ' :: (word ++ ' ' :: word')) = word ++ ' ' :: word' := by
  have hfront : (' ' :: (word ++ ' ' :: word')).dropWhile isWhitespace = word ++ ' ' :: word' := by
    rw [dropWhile_cons_of_pos (by decide), h.dropWhile_append]
  rw [trim, hfront, reverse_append, reverse_cons, append_assoc,
    h'.reverse.dropWhile_append, reverse_append, reverse_append, reverse_reverse,
    reverse_reverse, append_assoc]
  rfl

theorem trim_word (h : IsWord word) : trim word = word := by
  have hfront := @IsWord.dropWhile_append _ [] h
  have hback := @IsWord.dropWhile_append _ [] h.reverse
  rw [append_nil] at hfront hback
  rw [trim, hfront, hback, reverse_reverse]

theorem splitWhitespace_word (h : IsWord word) : splitWhitespace word = [word] := by
  have hall : ∀ c ∈ word, (! isWhitespace c) = true := fun c hc => by rw [h.solid c hc]; rfl
  rw [splitWhitespace]
  split
  · rw [takeWhile_eq_self_iff.mpr hall]
  · next hdrop =>
    rw [dropWhile_eq_nil_iff.mpr hall] at hdrop
    cases hdrop

theorem splitWhitespace_cons (h : IsWord word) (hrest : rest.dropWhile isWhitespace = rest) :
    splitWhitespace (word ++ ' ' :: rest) = word :: splitWhitespace rest := by
  have hall : ∀ c ∈ word, (! isWhitespace c) = true := fun c hc => by rw [h.solid c hc]; rfl
  have hspace : isWhitespace ' ' = true := by decide
  have htake : (word ++ ' ' :: rest).takeWhile (! isWhitespace ·) = word := by
    rw [takeWhile_append_of_pos hall, takeWhile_cons, hspace]
    exact append_nil word
  have hdrop : (word ++ ' ' :: rest).dropWhile (! isWhitespace ·) = ' ' :: rest := by
    rw [dropWhile_append_of_pos hall, dropWhile_cons, hspace]
    rfl
  rw [splitWhitespace]
  split
  · next hnil =>
    rw [hdrop] at hnil
    cases hnil
  · next hcons =>
    rw [hdrop] at hcons
    obtain ⟨-, rfl⟩ := List.cons.inj hcons
    rw [htake, hrest]

/-- **Two words** and the space between them. -/
theorem splitWhitespace_pair {word' : Text} (h : IsWord word) (h' : IsWord word') :
    splitWhitespace (word ++ ' ' :: word') = [word, word'] := by
  have hrest := @IsWord.dropWhile_append _ [] h'
  rw [append_nil] at hrest
  rw [splitWhitespace_cons h hrest, splitWhitespace_word h']

/-- Words and the spaces between them. -/
theorem splitWhitespace_words {words : List Text} (hne : words ≠ [])
    (h : ∀ word ∈ words, IsWord word) : splitWhitespace ([' '].intercalate words) = words := by
  induction words with
  | nil => exact absurd rfl hne
  | cons word words ih =>
    have hword := h word mem_cons_self
    cases words with
    | nil => rw [intercalate_singleton, splitWhitespace_word hword]
    | cons next words =>
      have hnext : IsWord next := h next (mem_cons_of_mem _ mem_cons_self)
      have hfront : ([' '].intercalate (next :: words)).dropWhile isWhitespace =
          [' '].intercalate (next :: words) := by
        cases words with
        | nil =>
          have halone := @IsWord.dropWhile_append _ [] hnext
          rw [append_nil] at halone
          rwa [intercalate_singleton]
        | cons third words =>
          rw [intercalate_cons_of_ne_nil (cons_ne_nil _ _), append_assoc]
          exact hnext.dropWhile_append
      rw [intercalate_cons_of_ne_nil (cons_ne_nil _ _), append_assoc]
      refine (splitWhitespace_cons hword hfront).trans ?_
      rw [ih (cons_ne_nil _ _) (forall_mem_cons.mp h).2]

end

/-! ### Integers -/

theorem isDigit_digitChar : ∀ d < 10, isDigit (Nat.digitChar d) = true := by decide

theorem isDigit_of_mem_toDigits {n : ℕ} {c : Char} (h : c ∈ Nat.toDigits 10 n) :
    isDigit c = true := by
  induction n using Nat.strong_induction_on with
  | _ n ih =>
    rw [Nat.toDigits_eq_if (by decide)] at h
    split at h
    · next hlt =>
      rw [mem_singleton.mp h]
      exact isDigit_digitChar n hlt
    · rcases mem_append.mp h with hfront | hlast
      · exact ih (n / 10) (by omega) hfront
      · rw [mem_singleton.mp hlast]
        exact isDigit_digitChar _ (Nat.mod_lt _ (by decide))

theorem isWhitespace_of_isDigit {c : Char} (h : isDigit c = true) : isWhitespace c = false := by
  have hbounds : '0' ≤ c ∧ c ≤ '9' := of_decide_eq_true h
  have hlower : 48 ≤ c.toNat := hbounds.1
  have hupper : c.toNat ≤ 57 := hbounds.2
  unfold isWhitespace
  simp only [contains_eq_mem, mem_cons, not_mem_nil, or_false, Bool.or_eq_false_iff,
    decide_eq_false_iff_not]
  omega

theorem isWord_toDigits (n : ℕ) : IsWord (Nat.toDigits 10 n) where
  ne_nil := Nat.toDigits_ne_nil
  solid _ hc := isWhitespace_of_isDigit (isDigit_of_mem_toDigits hc)

theorem isWord_decimalText (n : ℤ) : IsWord (decimalText n) := by
  have hdigits := isWord_toDigits n.natAbs
  rw [decimalText]
  split
  · refine ⟨cons_ne_nil _ _, fun c hc => ?_⟩
    rcases mem_cons.mp hc with rfl | hrest
    · decide
    · exact hdigits.solid c hrest
  · exact hdigits

theorem unsignedDecimal_toDigits (n : ℕ) : unsignedDecimal (Nat.toDigits 10 n) = some (n : ℚ) := by
  have hall : ∀ c ∈ Nat.toDigits 10 n, isDigit c = true := fun c hc => isDigit_of_mem_toDigits hc
  have hwhole : (Nat.toDigits 10 n).takeWhile isDigit = Nat.toDigits 10 n :=
    takeWhile_eq_self_iff.mpr hall
  have hrest : (Nat.toDigits 10 n).dropWhile isDigit = [] := dropWhile_eq_nil_iff.mpr hall
  have hne : ¬ (Nat.toDigits 10 n = [] ∧ ([] : Text) = []) := fun h => Nat.toDigits_ne_nil h.1
  unfold unsignedDecimal
  rw [hwhole, hrest]
  dsimp only
  rw [if_neg hne, append_nil, Nat.ofDigitChars_ten_toDigits, length_nil, pow_zero, div_one]

/-- Digits are a decimal literal. -/
theorem numericLiteral_toDigits (n : ℕ) : numericLiteral (Nat.toDigits 10 n) = some (n : ℚ) := by
  have hall : ∀ c ∈ Nat.toDigits 10 n, isDigit c = true := fun c hc => isDigit_of_mem_toDigits hc
  have hvalue := unsignedDecimal_toDigits n
  have hne : Nat.toDigits 10 n ≠ [] := Nat.toDigits_ne_nil
  rw [numericLiteral, trim_word (isWord_toDigits n)]
  generalize Nat.toDigits 10 n = digits at hall hvalue hne
  have hno : ∀ {c : Char}, isDigit c = false → c ∉ digits := fun hc hmem => by
    rw [hall _ hmem] at hc
    cases hc
  split
  · exact absurd rfl hne
  · exact absurd (mem_cons_of_mem _ mem_cons_self) (hno (by decide : isDigit 'x' = false))
  · exact absurd (mem_cons_of_mem _ mem_cons_self) (hno (by decide : isDigit 'X' = false))
  · exact absurd (mem_cons_of_mem _ mem_cons_self) (hno (by decide : isDigit 'o' = false))
  · exact absurd (mem_cons_of_mem _ mem_cons_self) (hno (by decide : isDigit 'O' = false))
  · exact absurd (mem_cons_of_mem _ mem_cons_self) (hno (by decide : isDigit 'b' = false))
  · exact absurd (mem_cons_of_mem _ mem_cons_self) (hno (by decide : isDigit 'B' = false))
  · exact absurd mem_cons_self (hno (by decide : isDigit '+' = false))
  · exact absurd mem_cons_self (hno (by decide : isDigit '-' = false))
  · exact hvalue

theorem numericLiteral_decimalText (n : ℤ) : numericLiteral (decimalText n) = some (n : ℚ) := by
  have hword := isWord_decimalText n
  rw [decimalText] at hword ⊢
  split
  · next hneg =>
    rw [if_pos hneg] at hword
    have habs : ((n.natAbs : ℤ) : ℚ) = -(n : ℚ) := by
      rw [Int.ofNat_natAbs_of_nonpos hneg.le, Int.cast_neg]
    rw [numericLiteral, trim_word hword]
    refine (congrArg (Option.map _) (unsignedDecimal_toDigits n.natAbs)).trans ?_
    rw [Option.map_some, ← Int.cast_natCast n.natAbs, habs, neg_neg]
  · next hpos =>
    have habs : ((n.natAbs : ℤ) : ℚ) = (n : ℚ) := by
      rw [Int.natAbs_of_nonneg (Int.not_lt.mp hpos)]
    rw [numericLiteral_toDigits, ← Int.cast_natCast n.natAbs, habs]

/-- **An integer in digits** is read back. -/
theorem numberOf_decimalText {n : ℤ} (h : |n| ≤ maxSafeInteger) :
    numberOf (decimalText n) = some (n : ℚ) := by
  rw [maxSafeInteger] at h
  rw [numberOf, numericLiteral_decimalText, Option.map_some, toDouble_int (by omega)]

end Tsgit
