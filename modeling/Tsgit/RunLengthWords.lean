import Mathlib.Data.List.Basic
import Mathlib.Tactic.Linarith

/-!
# Run-Length Words

The compression of long strings of bits in words of 64 bits: a marker word says how often a word
of equal bits is repeated, and how many words follow it as they are.
-/

namespace RunLengthWords

open List

/-- The repeated bit of a marker: its lowest one. -/
def runBit (word : ℕ) : Bool := word.testBit 0

/-- How often the word of a run is repeated: 32 bits from bit 1 on. -/
def cleanCount (word : ℕ) : ℕ := word / 2 % 2 ^ 32

/-- How many words follow as they are: the bits from 33 on. -/
def literalCount (word : ℕ) : ℕ := word / 2 ^ 33

def runWord (bit : Bool) : ℕ := if bit then 2 ^ 64 - 1 else 0

/-- **What compressed words stand for.** -/
def decodeWords : List ℕ → List ℕ
  | [] => []
  | word :: rest =>
    replicate (cleanCount word) (runWord (runBit word)) ++
      (rest.take (literalCount word) ++ decodeWords (rest.drop (literalCount word)))
termination_by words => words.length
decreasing_by
  rw [length_drop, length_cons]
  omega

variable {σ : Type}

def walk (clean : σ → Bool → ℕ → σ) (literal : σ → ℕ → σ) (state : σ) : List ℕ → σ
  | [] => state
  | word :: rest =>
    walk clean literal
      ((rest.take (literalCount word)).foldl literal
        (clean state (runBit word) (cleanCount word)))
      (rest.drop (literalCount word))
termination_by words => words.length
decreasing_by
  rw [length_drop, length_cons]
  omega

variable {clean : σ → Bool → ℕ → σ} {literal : σ → ℕ → σ} {inv : List ℕ → σ → Prop}
  {fits : ℕ → Prop}

theorem foldl_spec {words : List ℕ} (hwords : ∀ word ∈ words, fits word)
    (hliteral : ∀ done state word, inv done state → fits word →
      inv (done ++ [word]) (literal state word)) {done : List ℕ} {state : σ}
    (h : inv done state) : inv (done ++ words) (words.foldl literal state) := by
  induction words generalizing done state with
  | nil => rwa [append_nil]
  | cons word words ih =>
    have hnext := hliteral done state word h (hwords word mem_cons_self)
    have hrest := ih (forall_mem_cons.mp hwords).2 hnext
    rwa [append_assoc, singleton_append] at hrest

theorem walk_spec {words : List ℕ} (hwords : ∀ word ∈ words, fits word)
    (hclean : ∀ done state bit count, inv done state →
      inv (done ++ replicate count (runWord bit)) (clean state bit count))
    (hliteral : ∀ done state word, inv done state → fits word →
      inv (done ++ [word]) (literal state word)) {done : List ℕ} {state : σ}
    (h : inv done state) : inv (done ++ decodeWords words) (walk clean literal state words) := by
  induction words using decodeWords.induct generalizing done state with
  | case1 => rwa [decodeWords, append_nil, walk]
  | case2 word rest ih =>
    have hrest : ∀ w ∈ rest, fits w := (forall_mem_cons.mp hwords).2
    have hrun := hclean done state (runBit word) (cleanCount word) h
    have htaken : ∀ w ∈ rest.take (literalCount word), fits w := fun w hw =>
      hrest w (mem_of_mem_take hw)
    have hliterals := foldl_spec htaken hliteral hrun
    have hlater := ih (fun w hw => hrest w (mem_of_mem_drop hw)) hliterals
    rw [decodeWords, walk]
    rwa [append_assoc, append_assoc] at hlater

theorem decodeWords_fits {words : List ℕ} (hwords : ∀ word ∈ words, word < 2 ^ 64) :
    ∀ word ∈ decodeWords words, word < 2 ^ 64 := by
  induction words using decodeWords.induct with
  | case1 =>
    rw [decodeWords]
    exact fun word hmem => absurd hmem not_mem_nil
  | case2 word rest ih =>
    have hrest : ∀ w ∈ rest, w < 2 ^ 64 := (forall_mem_cons.mp hwords).2
    rw [decodeWords]
    intro w hw
    rcases mem_append.mp hw with hrun | hlater
    · rw [eq_of_mem_replicate hrun, runWord]
      split
      · decide
      · decide
    · rcases mem_append.mp hlater with hliteral | hbehind
      · exact hrest w (mem_of_mem_take hliteral)
      · exact ih (fun v hv => hrest v (mem_of_mem_drop hv)) w hbehind

end RunLengthWords
