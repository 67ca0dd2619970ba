import Tsgit.RefGlobDenotes

/-!
# Ref Globs Match What They Denote
-/

namespace Tsgit.RefGlob

open GlobRows List

/-! ### Rows of tokens -/

def nextRow (text : Bytes) (token : RefGlobToken) :
    Option (List Bool) → Except TypeError (Option (List Bool))
  | none => .ok none
  | some next => (stepToken token text next (zeros text)).map fun filled =>
    if filled.contains true then some filled else none

/-- The row of the tokens, none when one on the way is empty. -/
def rowOf (text : Bytes) : List RefGlobToken → Except TypeError (Option (List Bool))
  | [] => .ok (some (baseRow text))
  | token :: tokens => rowOf text tokens >>= nextRow text token

def resume (text : Bytes) (before : List RefGlobToken) :
    Option (List Bool) → Except TypeError Bool
  | none => .ok false
  | some row => matchReversed text before row (zeros text)

variable {text : Bytes}

theorem length_stepMatch {test : ByteTest} {next cur row : List Bool}
    (h : stepMatch test text next cur = .ok row) : row.length = cur.length := by
  induction text generalizing next cur row with
  | nil =>
    rw [stepMatch] at h
    · rw [Except.ok.inj h]
    · simp
  | cons byte text ih =>
    cases next with
    | nil =>
      rw [stepMatch] at h
      · rw [Except.ok.inj h]
      · simp
    | cons cell next =>
      cases cur with
      | nil =>
        rw [stepMatch] at h
        · rw [Except.ok.inj h]
        · simp
      | cons old cur =>
        rw [stepMatch] at h
        cases htest : test byte with
        | error e =>
          rw [htest] at h
          cases h
        | ok admitted =>
          cases hrest : stepMatch test text next cur with
          | error e =>
            rw [htest, hrest] at h
            cases h
          | ok rest =>
            rw [htest, hrest] at h
            rw [← Except.ok.inj h, length_cons, length_cons, ih hrest]

variable {next : List Bool}

theorem length_run {admits : UInt8 → Bool}
    (h : next.length = text.length + 1) : (run admits text next).length = text.length + 1 := by
  induction text generalizing next with
  | nil => rfl
  | cons b text ih =>
    cases next with
    | nil => cases h
    | cons cell next =>
      rw [run, length_cons, ih (Nat.succ.inj h), length_cons]

theorem length_zeros (text : Bytes) : (zeros text).length = text.length + 1 :=
  length_replicate

variable {token : RefGlobToken}

theorem length_stepToken {row : List Bool}
    (hnext : next.length = text.length + 1) (h : stepToken token text next (zeros text) = .ok row) :
    row.length = text.length + 1 := by
  cases token with
  | star =>
    rw [← Except.ok.inj h]
    exact length_run hnext
  | segment =>
    rw [← Except.ok.inj h]
    exact length_run hnext
  | dirs =>
    cases hmatch : stepMatch isSlash text next (zeros text) with
    | error e =>
      rw [stepToken, stepDirs, hmatch] at h
      cases h
    | ok through =>
      rw [stepToken, stepDirs, hmatch] at h
      have hthrough := (length_stepMatch hmatch).trans (length_zeros text)
      rw [← Except.ok.inj h, length_zipWith, stepStar, length_run hthrough, hnext, min_self]
  | one test => exact (length_stepMatch h).trans (length_zeros text)

theorem length_baseRow (text : Bytes) : (baseRow text).length = text.length + 1 := by
  induction text with
  | nil => rfl
  | cons b text ih => rw [baseRow, length_cons, ih, length_cons]

theorem nextRow_some {row : List Bool}
    (h : nextRow text token (some next) = .ok (some row)) :
    stepToken token text next (zeros text) = .ok row ∧ row.contains true = true := by
  rw [nextRow] at h
  cases hstep : stepToken token text next (zeros text) with
  | error e =>
    rw [hstep] at h
    cases h
  | ok filled =>
    rw [hstep] at h
    have hsome : (if filled.contains true = true then some filled else none) = some row :=
      Except.ok.inj h
    split at hsome
    · next hfilled =>
      obtain rfl := Option.some.inj hsome
      exact ⟨rfl, hfilled⟩
    · cases hsome

variable {tokens : List RefGlobToken}

theorem length_rowOf {row : List Bool}
    (h : rowOf text tokens = .ok (some row)) : row.length = text.length + 1 := by
  induction tokens generalizing row with
  | nil =>
    rw [← Option.some.inj (Except.ok.inj h)]
    exact length_baseRow text
  | cons token tokens ih =>
    rw [rowOf] at h
    cases hrow : rowOf text tokens with
    | error e =>
      rw [hrow] at h
      cases h
    | ok next =>
      rw [hrow] at h
      cases next with
      | none => cases h
      | some next => exact length_stepToken (ih hrow) (nextRow_some h).1

theorem map_zeros {cur : List Bool} (h : cur.length = text.length + 1) :
    (cur.map fun _ => false) = zeros text := by
  rw [zeros, ← h]
  exact map_const

theorem matchReversed_cur (before : List RefGlobToken) (next : List Bool)
    {cur : List Bool} (hcur : cur.length = text.length + 1) :
    matchReversed text before next cur = matchReversed text before next (zeros text) := by
  cases before with
  | nil => rfl
  | cons token before =>
    rw [matchReversed, matchReversed, map_zeros hcur, map_zeros (length_zeros text)]

theorem resume_cons (token : RefGlobToken) (before : List RefGlobToken) (hnext : next.length = text.length + 1) :
    resume text (token :: before) (some next) =
      nextRow text token (some next) >>= resume text before := by
  rw [resume, matchReversed, map_zeros (length_zeros text), nextRow]
  cases hstep : stepToken token text next (zeros text) with
  | error e => rfl
  | ok filled =>
    have hswap := matchReversed_cur before filled hnext
    cases hfilled : filled.contains true with
    | true =>
      simp only [bind, Except.bind, Except.map, hfilled, Bool.not_true, Bool.false_eq_true,
        if_false, if_true]
      exact hswap
    | false => simp only [bind, Except.bind, Except.map, hfilled]; rfl

theorem matchReversed_eq (text : Bytes) (tokens before : List RefGlobToken) :
    matchReversed text (tokens.reverse ++ before) (baseRow text) (zeros text) =
      rowOf text tokens >>= resume text before := by
  induction tokens generalizing before with
  | nil => rfl
  | cons token tokens ih =>
    rw [reverse_cons, append_assoc, singleton_append, ih, rowOf]
    cases hrow : rowOf text tokens with
    | error e => rfl
    | ok row =>
      cases row with
      | none => rfl
      | some row => exact resume_cons token before (length_rowOf hrow)

/-- **The verdict is the first cell of the row of the tokens.** -/
theorem matchTokens_eq (tokens : List RefGlobToken) (text : Bytes) :
    matchTokens tokens text = rowOf text tokens >>= resume text [] := by
  have h := matchReversed_eq text tokens []
  rwa [append_nil] at h

/-! ### Rows of items -/

theorem stepMatch_spec {test : ByteTest} {S : Set UInt8} (htest : Computes test S)
    {L : Language UInt8} (h : IsRow L text next) :
    ∃ row, stepMatch test text next (zeros text) = .ok row ∧ IsRow (letter S * L) text row := by
  induction text generalizing next with
  | nil => exact ⟨[false], rfl, false, rfl, by simp [nil_not_mem_letter_mul]⟩
  | cons b text ih =>
    obtain ⟨cell, rest, rfl, -, hrest⟩ := h
    obtain ⟨admitted, hadmitted, hiff⟩ := htest b
    obtain ⟨row, hrow, hisRow⟩ := ih hrest
    refine ⟨(if admitted && rest.headD false then true else false) :: row, ?_, _, row, rfl, ?_,
      hisRow⟩
    · have hzeros : zeros (b :: text) = false :: zeros text := rfl
      rw [hzeros, stepMatch, hadmitted]
      simp only [bind, Except.bind, hrow, pure, Except.pure]
    · rw [cons_mem_letter_mul, ← hiff, ← hrest.head]
      cases admitted <;> simp

theorem stepToken_spec {item : Item} (hmeans : Means token item)
    {L : Language UInt8} (h : IsRow L text next) :
    ∃ row, stepToken token text next (zeros text) = .ok row ∧
      IsRow (item.language * L) text row := by
  cases hmeans with
  | star => exact ⟨_, rfl, isRow_run (by simp) h⟩
  | segment => exact ⟨_, rfl, isRow_run (by simp) h⟩
  | dirs =>
    have hslash : Computes isSlash {slash} := byte_computes slash
    obtain ⟨through, hthrough, hrow⟩ := stepMatch_spec hslash h
    have hany : IsRow (runs Set.univ * (letter {slash} * L)) text (stepStar text through) :=
      isRow_run (by simp) hrow
    refine ⟨_, by rw [stepToken, stepDirs, hthrough]; rfl, (hany.union h).congr fun w => ?_⟩
    rw [Language.mem_add, or_comm]
    exact mem_dirs_mul.symm
  | one htest => exact stepMatch_spec htest h

theorem rowOf_means {items : List Item} (h : List.Forall₂ Means tokens items) (text : Bytes) :
    (∃ row, rowOf text tokens = .ok (some row) ∧ IsRow (language items) text row) ∨
      rowOf text tokens = .ok none ∧ ∀ K : Language UInt8, text ∉ K * language items := by
  induction h with
  | nil => exact .inl ⟨baseRow text, rfl, isRow_base text⟩
  | cons hmeans hrest ih =>
    rename_i token item tokens items
    have hmul (K : Language UInt8) : K * language (item :: items) =
        K * item.language * language items := by
      rw [mul_assoc]
      rfl
    rcases ih with ⟨next, hnext, hisRow⟩ | ⟨hnone, hout⟩
    · obtain ⟨row, hrow, hrowIs⟩ := stepToken_spec hmeans hisRow
      rw [rowOf, hnext]
      change (_ ∨ _)
      cases hfilled : row.contains true with
      | true =>
        refine .inl ⟨row, ?_, hrowIs⟩
        change nextRow text token (some next) = _
        rw [nextRow, hrow]
        simp only [Except.map, hfilled, if_true]
      | false =>
        refine .inr ⟨?_, fun K => hrowIs.not_mem_mul hfilled K⟩
        change nextRow text token (some next) = _
        rw [nextRow, hrow]
        simp only [Except.map, hfilled]
        rfl
    · refine .inr ⟨?_, fun K => ?_⟩
      · rw [rowOf, hnone]
        rfl
      · rw [hmul]
        exact hout _

theorem matchTokens_means {items : List Item} (h : List.Forall₂ Means tokens items) (text : Bytes) :
    ∃ verdict, matchTokens tokens text = .ok verdict ∧
      (verdict = true ↔ text ∈ language items) := by
  rw [matchTokens_eq]
  rcases rowOf_means h text with ⟨row, hrow, hisRow⟩ | ⟨hnone, hout⟩
  · rw [hrow]
    exact ⟨row.headD false, rfl, hisRow.head⟩
  · rw [hnone]
    refine ⟨false, rfl, fun hfalse => absurd hfalse Bool.false_ne_true, fun hmem => ?_⟩
    have hone := hout 1
    rw [one_mul] at hone
    exact absurd hmem hone

/-! ### Tokens that match nothing -/

/-- The token never throws. -/
def Quiet (token : RefGlobToken) : Prop :=
  ∀ test, token = .one test → ∀ b, ∃ verdict, test b = .ok verdict

/-- The token admits no byte. -/
def Empty (token : RefGlobToken) : Prop := ∃ test, token = .one test ∧ ∀ b, test b = .ok false

/-- Read from the right, a token that admits no byte comes before any that throws. -/
def Blocked : List RefGlobToken → Prop
  | [] => False
  | token :: tokens => Blocked tokens ∨ Empty token ∧ ∀ t ∈ tokens, Quiet t

/-- Tokens that never throw stand for items. -/
theorem exists_means (hquiet : ∀ t ∈ tokens, Quiet t) :
    ∃ items, List.Forall₂ Means tokens items := by
  induction tokens with
  | nil => exact ⟨[], .nil⟩
  | cons token tokens ih =>
    obtain ⟨items, hitems⟩ := ih fun t ht => hquiet t (mem_cons_of_mem _ ht)
    have htoken := hquiet token mem_cons_self
    cases token with
    | star => exact ⟨_, .cons .star hitems⟩
    | segment => exact ⟨_, .cons .segment hitems⟩
    | dirs => exact ⟨_, .cons .dirs hitems⟩
    | one test =>
      have htest : Computes test {b | test b = .ok true} := fun b => by
        obtain ⟨verdict, hverdict⟩ := htoken test rfl b
        refine ⟨verdict, hverdict, fun h => h ▸ hverdict, fun h => ?_⟩
        exact Except.ok.inj (hverdict.symm.trans h)
      exact ⟨_, .cons (.one htest) hitems⟩

theorem stepMatch_empty {test : ByteTest} (htest : ∀ b, test b = .ok false) (hnext : next.length = text.length + 1) :
    stepMatch test text next (zeros text) = .ok (zeros text) := by
  induction text generalizing next with
  | nil => rfl
  | cons b text ih =>
    cases next with
    | nil => cases hnext
    | cons cell next =>
      have hzeros : zeros (b :: text) = false :: zeros text := rfl
      rw [hzeros, stepMatch, htest, ih (Nat.succ.inj hnext)]
      rfl

theorem contains_zeros (text : Bytes) : (zeros text).contains true = false := by
  rw [zeros, ← Bool.not_eq_true, contains_iff_mem]
  intro h
  exact Bool.noConfusion (eq_of_mem_replicate h)

theorem Blocked.rowOf (h : Blocked tokens) (text : Bytes) :
    rowOf text tokens = .ok none := by
  induction tokens with
  | nil => cases h
  | cons token tokens ih =>
    rw [RefGlob.rowOf]
    rcases h with hrest | ⟨⟨test, rfl, htest⟩, hquiet⟩
    · rw [ih hrest]
      rfl
    obtain ⟨items, hitems⟩ := exists_means hquiet
    rcases rowOf_means hitems text with ⟨row, hrow, -⟩ | ⟨hnone, -⟩
    · rw [hrow]
      change nextRow text (.one test) (some row) = .ok none
      rw [nextRow, stepToken, stepMatch_empty htest (length_rowOf hrow)]
      simp only [Except.map, contains_zeros]
      rfl
    · rw [hnone]
      rfl

theorem exists_of_not_blocked (h : ¬Blocked tokens) :
    (∃ text e, rowOf text tokens = .error e) ∨ (∀ t ∈ tokens, Quiet t) ∧
        ∀ items, List.Forall₂ Means tokens items → ∃ text, text ∈ language items := by
  induction tokens with
  | nil =>
    refine .inr ⟨fun t ht => absurd ht not_mem_nil, fun items hitems => ?_⟩
    cases hitems
    exact ⟨[], rfl⟩
  | cons token tokens ih =>
    rw [Blocked, not_or, not_and] at h
    rcases ih h.1 with ⟨text, e, herror⟩ | ⟨hquiet, hmatch⟩
    · refine .inl ⟨text, e, ?_⟩
      rw [rowOf, herror]
      rfl
    have hsome : ¬Empty token := fun hempty => h.2 hempty hquiet
    by_cases htoken : Quiet token
    · refine .inr ⟨fun t ht => ?_, fun items hitems => ?_⟩
      · rcases mem_cons.mp ht with rfl | ht
        · exact htoken
        · exact hquiet t ht
      cases hitems with
      | cons hmeans hrest =>
        rename_i item items
        obtain ⟨text, htext⟩ := hmatch items hrest
        cases hmeans with
        | star => exact ⟨text, Language.append_mem_mul (a := []) (nil_mem_runs _) htext⟩
        | segment => exact ⟨text, Language.append_mem_mul (a := []) (nil_mem_runs _) htext⟩
        | dirs =>
          exact ⟨text, Language.append_mem_mul (a := []) (mem_dirs.mpr (.inl rfl)) htext⟩
        | one htest =>
          rename_i test S
          by_contra hnone
          refine hsome ⟨test, rfl, fun b => ?_⟩
          obtain ⟨verdict, hverdict, hiff⟩ := htest b
          cases verdict with
          | false => exact hverdict
          | true =>
            exact absurd ⟨b :: text, cons_mem_letter_mul.mpr ⟨hiff.mp rfl, htext⟩⟩ hnone
    · -- A text that starts with a byte the token throws on.
      left
      rw [Quiet] at htoken
      push Not at htoken
      obtain ⟨test, rfl, b, hthrows⟩ := htoken
      obtain ⟨items, hitems⟩ := exists_means hquiet
      obtain ⟨text, htext⟩ := hmatch items hitems
      obtain ⟨e, he⟩ : ∃ e, test b = .error e := by
        cases htest : test b with
        | error e => exact ⟨e, rfl⟩
        | ok verdict => exact absurd htest (hthrows verdict)
      refine ⟨b :: text, e, ?_⟩
      rcases rowOf_means hitems (b :: text) with ⟨row, hrow, hisRow⟩ | ⟨-, hout⟩
      · obtain ⟨cell, rest, rfl, -, -⟩ := hisRow
        have hzeros : zeros (b :: text) = false :: zeros text := rfl
        rw [rowOf, hrow]
        change nextRow (b :: text) (.one test) (some (cell :: rest)) = .error e
        rw [nextRow, stepToken, hzeros, stepMatch, he]
        rfl
      · refine absurd (Language.append_mem_mul (a := [b]) ?_ htext) (hout (runs Set.univ))
        exact fun _ _ => Set.mem_univ _

/-- **A pattern accepts exactly the texts it denotes** exactly if it is well formed, or its tokens
are blocked. -/
theorem compileBytesWith_exact (pathname : Bool) (pattern : Bytes) :
    (∀ text, ∃ verdict, compileBytesWith (dialectOf pathname) pattern text = .ok verdict ∧
        (verdict = true ↔ Denotes pathname pattern text)) ↔
      ∀ tokens, tokenize (dialectOf pathname) pattern = some tokens →
        WellFormed pathname pattern ∨ Blocked tokens := by
  constructor
  · intro h tokens htokens
    refine or_iff_not_imp_left.mpr fun hmalformed => ?_
    by_contra hblocked
    have hmatch (text : Bytes) : matchTokens tokens text = .ok false := by
      obtain ⟨verdict, hverdict, hiff⟩ := h text
      rw [compileBytesWith, htokens] at hverdict
      cases verdict with
      | false => exact hverdict
      | true =>
        obtain ⟨items, hreads, -⟩ := hiff.mp rfl
        exact absurd ⟨items, hreads⟩ hmalformed
    rcases exists_of_not_blocked hblocked with ⟨text, e, herror⟩ | ⟨hquiet, hsome⟩
    · have hfalse := hmatch text
      rw [matchTokens_eq, herror] at hfalse
      cases hfalse
    obtain ⟨items, hitems⟩ := exists_means hquiet
    obtain ⟨text, htext⟩ := hsome items hitems
    obtain ⟨verdict, hverdict, hiff⟩ := matchTokens_means hitems text
    rw [hmatch text] at hverdict
    obtain rfl := Except.ok.inj hverdict
    exact Bool.false_ne_true (hiff.mpr htext)
  · intro h text
    rw [compileBytesWith]
    cases htokens : tokenize (dialectOf pathname) pattern with
    | none =>
      refine ⟨false, rfl, fun hfalse => absurd hfalse Bool.false_ne_true, ?_⟩
      rintro ⟨items, hreads, -⟩
      obtain ⟨tokens, hsome, -⟩ := hreads.tokenize
      rw [htokens] at hsome
      cases hsome
    | some tokens =>
      dsimp only
      by_cases hwell : WellFormed pathname pattern
      · obtain ⟨items, hreads⟩ := hwell
        obtain ⟨tokens', hsome, hmeans⟩ := hreads.tokenize
        obtain rfl : tokens = tokens' := Option.some.inj (htokens.symm.trans hsome)
        obtain ⟨verdict, hverdict, hiff⟩ := matchTokens_means hmeans text
        refine ⟨verdict, hverdict, hiff.trans ⟨fun hmem => ⟨items, hreads, hmem⟩, ?_⟩⟩
        rintro ⟨items', hreads', hmem⟩
        obtain ⟨tokens', hsome', hmeans'⟩ := hreads'.tokenize
        obtain rfl : tokens = tokens' := Option.some.inj (htokens.symm.trans hsome')
        obtain ⟨verdict', hverdict', hiff'⟩ := matchTokens_means hmeans' text
        obtain rfl := Except.ok.inj (hverdict.symm.trans hverdict')
        exact hiff.mp (hiff'.mpr hmem)
      · have hblocked := (h tokens htokens).resolve_left hwell
        refine ⟨false, ?_, fun hfalse => absurd hfalse Bool.false_ne_true, ?_⟩
        · rw [matchTokens_eq, hblocked.rowOf]
          rfl
        · rintro ⟨items, hreads, -⟩
          exact absurd ⟨items, hreads⟩ hwell

end Tsgit.RefGlob
