import Tsgit.RefGlob

/-!
# What a Ref Glob Denotes

A grammar of patterns with the languages of their parts, apart from the scanner.
-/

namespace Tsgit.RefGlob

open GlobRows List

/-! ### Sets -/

def OpensClass (bytes : Bytes) : Prop :=
  ∃ name rest, bytes = colon :: (name ++ colon :: rbracket :: rest) ∧ rbracket ∉ name

/-- One member, the set it stands for, and what follows; a range starts at the member before. -/
inductive Member : Option UInt8 → Bytes → Set UInt8 → Option UInt8 → Bytes → Prop
  | escaped (seed : Option UInt8) (c : UInt8) (rest : Bytes) :
      Member seed (backslash :: c :: rest) {c} (some c) rest
  | range (lo : UInt8) {hi : UInt8} (rest : Bytes) (hclose : hi ≠ rbracket)
      (hescape : hi ≠ backslash) :
      Member (some lo) (dash :: hi :: rest) {b | lo ≤ b ∧ b ≤ hi} none rest
  | rangeEscaped (lo hi : UInt8) (rest : Bytes) :
      Member (some lo) (dash :: backslash :: hi :: rest) {b | lo ≤ b ∧ b ≤ hi} none rest
  | named (seed : Option UInt8) (c : ClassName) (rest : Bytes) :
      Member seed (lbracket :: colon :: (encode c.text ++ colon :: rbracket :: rest))
        {b | c.test b = true} none rest
  | byte {seed : Option UInt8} {b : UInt8} {rest : Bytes} (hescape : b ≠ backslash)
      (hdash : b = dash → seed = none ∨ rest.head? = some rbracket)
      (hclass : b = lbracket → ¬OpensClass rest) :
      Member seed (b :: rest) {b} (some b) rest

/-- The members of a set up to its closing bracket, which may not come first. -/
inductive Members : Bool → Option UInt8 → Bytes → Set UInt8 → Bytes → Prop
  | close (seed : Option UInt8) (rest : Bytes) : Members false seed (rbracket :: rest) ∅ rest
  | cons {first : Bool} {seed seed' : Option UInt8} {bytes bytes' rest : Bytes}
      {S T : Set UInt8} (hopen : first = true ∨ bytes.head? ≠ some rbracket)
      (hmember : Member seed bytes S seed' bytes') (hrest : Members false seed' bytes' T rest) :
      Members first seed bytes (S ∪ T) rest

/-- A set after its opening bracket. -/
inductive Bracket : Bytes → Set UInt8 → Bytes → Prop
  | negated {b : UInt8} {bytes rest : Bytes} {S : Set UInt8} (hnegated : b = bang ∨ b = caret)
      (h : Members true none bytes S rest) : Bracket (b :: bytes) Sᶜ rest
  | plain {bytes rest : Bytes} {S : Set UInt8} (hbang : bytes.head? ≠ some bang)
      (hcaret : bytes.head? ≠ some caret) (h : Members true none bytes S rest) :
      Bracket bytes S rest

/-! ### Patterns -/

/-- What a part of a pattern stands for. -/
inductive Item
  | star
  | segment
  | dirs
  | one (S : Set UInt8)

def Item.language : Item → Language UInt8
  | star => runs Set.univ
  | segment => runs {slash}ᶜ
  | dirs => GlobRows.dirs slash
  | one S => letter S

def language (items : List Item) : Language UInt8 :=
  items.foldr (fun item rest => item.language * rest) 1

/-- Two or more stars between slashes or the ends of the pattern; `\/` is a slash after them. -/
def WholeSegment (before : Option UInt8) (count : ℕ) (rest : Bytes) : Prop :=
  1 < count ∧ (before = none ∨ before = some slash) ∧
    (rest = [] ∨ (∃ r, rest = slash :: r) ∨ ∃ r, rest = backslash :: slash :: r)

/-- The bytes that `?` and a set may stand for: in a path name, no slash. -/
def single (pathname : Bool) (S : Set UInt8) : Set UInt8 := if pathname then S \ {slash} else S

/-- The bytes of a pattern after `before`, as a list of items. -/
inductive Reads (pathname : Bool) : Option UInt8 → Bytes → List Item → Prop
  | done (before : Option UInt8) : Reads pathname before [] []
  | anyRun {before : Option UInt8} {n : ℕ} {rest : Bytes} {items : List Item}
      (hdialect : pathname = false) (hrest : rest.head? ≠ some star)
      (h : Reads pathname (some star) rest items) :
      Reads pathname before (replicate (n + 1) star ++ rest) (.star :: items)
  | segmentRun {before : Option UInt8} {n : ℕ} {rest : Bytes} {items : List Item}
      (hdialect : pathname = true) (hrest : rest.head? ≠ some star)
      (hwhole : ¬WholeSegment before (n + 1) rest) (h : Reads pathname (some star) rest items) :
      Reads pathname before (replicate (n + 1) star ++ rest) (.segment :: items)
  | dirsRun {before : Option UInt8} {n : ℕ} {rest : Bytes} {items : List Item}
      (hdialect : pathname = true) (hwhole : WholeSegment before (n + 1) (slash :: rest))
      (h : Reads pathname (some slash) rest items) :
      Reads pathname before (replicate (n + 1) star ++ slash :: rest) (.dirs :: items)
  | crossingRun {before : Option UInt8} {n : ℕ} {rest : Bytes} {items : List Item}
      (hdialect : pathname = true) (hrest : rest.head? ≠ some star)
      (hslash : rest.head? ≠ some slash) (hwhole : WholeSegment before (n + 1) rest)
      (h : Reads pathname (some star) rest items) :
      Reads pathname before (replicate (n + 1) star ++ rest) (.star :: items)
  | question {before : Option UInt8} {rest : Bytes} {items : List Item}
      (h : Reads pathname (some question) rest items) :
      Reads pathname before (question :: rest) (.one (single pathname Set.univ) :: items)
  | escape {before : Option UInt8} {c : UInt8} {rest : Bytes} {items : List Item}
      (h : Reads pathname (some c) rest items) :
      Reads pathname before (backslash :: c :: rest) (.one {c} :: items)
  | bracket {before : Option UInt8} {bytes rest : Bytes} {S : Set UInt8} {items : List Item}
      (hset : Bracket bytes S rest) (h : Reads pathname (some rbracket) rest items) :
      Reads pathname before (lbracket :: bytes) (.one (single pathname S) :: items)
  | literal {before : Option UInt8} {b : UInt8} {rest : Bytes} {items : List Item}
      (hplain : b ≠ star ∧ b ≠ question ∧ b ≠ backslash ∧ b ≠ lbracket)
      (h : Reads pathname (some b) rest items) :
      Reads pathname before (b :: rest) (.one {b} :: items)

/-- The grammar reads the pattern: its sets are closed, its classes known, no backslash ends it. -/
def WellFormed (pathname : Bool) (pattern : Bytes) : Prop :=
  ∃ items, Reads pathname none pattern items

/-- The text is one of the pattern's. -/
def Denotes (pathname : Bool) (pattern text : Bytes) : Prop :=
  ∃ items, Reads pathname none pattern items ∧ text ∈ language items

/-! ### The scanner reads patterns -/

/-- A test that decides membership. -/
def Computes (test : ByteTest) (S : Set UInt8) : Prop :=
  ∀ b, ∃ verdict, test b = .ok verdict ∧ (verdict = true ↔ b ∈ S)

theorem classTests_text (c : ClassName) : classTests c.text = some fun b => .ok (c.test b) := by
  cases c <;> rfl

theorem rbracket_not_mem_text (c : ClassName) : rbracket ∉ encode c.text := by
  cases c <;> decide

theorem decode_text (c : ClassName) : decode (encode c.text) = c.text := by
  cases c <;> rfl

theorem takeWhile_before {stop : UInt8} {name : Bytes} (hname : stop ∉ name) (rest : Bytes) :
    (name ++ stop :: rest).takeWhile (· != stop) = name ∧
      (name ++ stop :: rest).dropWhile (· != stop) = stop :: rest := by
  induction name with
  | nil => simp
  | cons b name ih =>
    rw [mem_cons, not_or] at hname
    obtain ⟨htake, hdrop⟩ := ih hname.2
    have hb : (b != stop) = true := bne_iff_ne.mpr (Ne.symm hname.1)
    constructor
    · rw [cons_append, takeWhile_cons_of_pos (p := fun x => x != stop) hb, htake]
    · rw [cons_append, dropWhile_cons_of_pos (p := fun x => x != stop) hb, hdrop]

theorem parseClassAttempt_named (c : ClassName) (rest : Bytes) :
    parseClassAttempt (encode c.text ++ colon :: rbracket :: rest) =
      some ⟨.cls fun b => .ok (c.test b), rest, none⟩ := by
  have hname : rbracket ∉ encode c.text ++ [colon] := by
    rw [mem_append, not_or]
    exact ⟨rbracket_not_mem_text c, by decide⟩
  have hsplit : encode c.text ++ colon :: rbracket :: rest =
      (encode c.text ++ [colon]) ++ rbracket :: rest := by
    rw [append_assoc, singleton_append]
  obtain ⟨htake, hdrop⟩ := takeWhile_before hname rest
  rw [parseClassAttempt, hsplit, htake, hdrop]
  simp only [getLast?_concat, dropLast_concat, ne_eq, not_true_eq_false, if_false]
  rw [decode_text, classTests_text]

theorem parseClassAttempt_plain {bytes : Bytes} (hclose : rbracket ∈ bytes)
    (hplain : ¬OpensClass (colon :: bytes)) :
    parseClassAttempt bytes = some ⟨.byte lbracket, colon :: bytes, some lbracket⟩ := by
  obtain ⟨name, rest, rfl, hname⟩ := eq_append_cons_of_mem hclose
  obtain ⟨htake, hdrop⟩ := takeWhile_before hname rest
  rw [parseClassAttempt, htake, hdrop]
  dsimp only
  refine if_pos fun hlast => hplain ?_
  have hne : name ≠ [] := by
    rintro rfl
    cases hlast
  have hsplit : name = name.dropLast ++ [colon] := by
    rw [getLast?_eq_some_getLast hne] at hlast
    rw [← Option.some.inj hlast, dropLast_append_getLast]
  refine ⟨name.dropLast, rest, ?_, fun hmem => hname (mem_of_mem_dropLast hmem)⟩
  conv_lhs => rw [hsplit]
  rw [append_assoc, singleton_append]

variable {S : Set UInt8}

theorem Members.mem {first : Bool} {seed : Option UInt8} {bytes rest : Bytes}
    (h : Members first seed bytes S rest) : rbracket ∈ bytes := by
  induction h with
  | close seed rest => exact mem_cons_self
  | cons hopen hmember hrest ih =>
    cases hmember with
    | escaped c rest => exact mem_cons_of_mem _ (mem_cons_of_mem _ ih)
    | range lo rest hclose hescape => exact mem_cons_of_mem _ (mem_cons_of_mem _ ih)
    | rangeEscaped lo hi rest =>
      exact mem_cons_of_mem _ (mem_cons_of_mem _ (mem_cons_of_mem _ ih))
    | named c rest => simp
    | byte hescape hdash hclass => exact mem_cons_of_mem _ ih

/-- The scanner reads a member. -/
theorem Member.parse {seed seed' : Option UInt8} {bytes bytes' : Bytes}
    (h : Member seed bytes S seed' bytes') (hclose : rbracket ∈ bytes') :
    ∃ byte next atom, bytes = byte :: next ∧
      parseMember byte next seed = some ⟨atom, bytes', seed'⟩ ∧ bytes'.length ≤ next.length ∧
      Computes (fun b => matchesAtom b atom) S := by
  cases h with
  | escaped _ c _ =>
    refine ⟨backslash, c :: bytes', .byte c, rfl, rfl, Nat.le_succ _, fun b => ⟨_, rfl, ?_⟩⟩
    rw [beq_iff_eq, Set.mem_singleton_iff]
  | range lo rest hclose hescape =>
    rename_i hi
    refine ⟨dash, hi :: bytes', .range lo hi, rfl, ?_, Nat.le_succ _, fun b => ⟨_, rfl, ?_⟩⟩
    · rw [parseMember, if_neg (by decide), if_pos (by simpa using hclose)]
      exact if_neg hescape
    · rw [Bool.and_eq_true, decide_eq_true_iff, decide_eq_true_iff]
      rfl
  | rangeEscaped lo hi rest =>
    refine ⟨dash, backslash :: hi :: bytes', .range lo hi, rfl, ?_, by simp; omega,
      fun b => ⟨_, rfl, ?_⟩⟩
    · rw [parseMember.eq_def, if_neg (by decide), if_pos (by simp; decide)]
      rfl
    · rw [Bool.and_eq_true, decide_eq_true_iff, decide_eq_true_iff]
      rfl
  | named _ c _ =>
    refine ⟨lbracket, colon :: (encode c.text ++ colon :: rbracket :: bytes'),
      .cls fun b => .ok (c.test b), rfl, ?_, by simp; omega, fun b => ⟨c.test b, rfl, Iff.rfl⟩⟩
    rw [parseMember, if_neg (by decide), if_neg (by simp [lbracket, dash]),
      if_pos (by simp), tail_cons, parseClassAttempt_named]
  | byte hescape hdash hclass =>
    rename_i b
    refine ⟨b, bytes', .byte b, rfl, ?_, le_rfl, fun b' => ⟨_, rfl, ?_⟩⟩
    · rw [parseMember.eq_def, if_neg hescape, if_neg]
      · by_cases hopen : b = lbracket ∧ bytes'.head? = some colon
        · rw [if_pos hopen]
          obtain ⟨rfl, hcolon⟩ := hopen
          cases bytes' with
          | nil => cases hcolon
          | cons c rest =>
            obtain rfl : c = colon := Option.some.inj hcolon
            have hmem : rbracket ∈ rest := by
              rcases mem_cons.mp hclose with heq | hmem
              · exact absurd heq (by decide)
              · exact hmem
            exact parseClassAttempt_plain hmem (hclass rfl)
        · rw [if_neg hopen]
      · rintro ⟨rfl, hseed, -, hhead⟩
        rcases hdash rfl with hnone | hnext
        · exact hseed hnone
        · exact hhead hnext
    · rw [beq_iff_eq, Set.mem_singleton_iff]

theorem someAtom_cons {atom : BracketAtom} {atoms : List BracketAtom} {T : Set UInt8}
    (hatom : Computes (fun b => matchesAtom b atom) S)
    (hatoms : Computes (fun b => someAtom b atoms) T) :
    Computes (fun b => someAtom b (atom :: atoms)) (S ∪ T) := by
  intro b
  obtain ⟨hit, heq, hiff⟩ := hatom b
  dsimp only at heq
  cases hit with
  | true =>
    refine ⟨true, ?_, fun _ => .inl (hiff.mp rfl), fun _ => rfl⟩
    dsimp only
    rw [someAtom, heq]
    rfl
  | false =>
    obtain ⟨verdict, heq', hiff'⟩ := hatoms b
    refine ⟨verdict, ?_, ?_⟩
    · dsimp only at heq' ⊢
      rw [someAtom, heq]
      exact heq'
    · rw [hiff', Set.mem_union]
      exact ⟨.inr, fun h => h.resolve_left fun hS => Bool.false_ne_true (hiff.mpr hS)⟩

/-- The scanner reads the members of a set. -/
theorem Members.parse {first : Bool} {seed : Option UInt8} {bytes rest : Bytes}
    (h : Members first seed bytes S rest) {fuel : ℕ} (hfuel : bytes.length ≤ fuel) :
    ∃ atoms, parseMembers fuel first seed bytes = some (atoms, rest) ∧
      rest.length < bytes.length ∧ Computes (fun b => someAtom b atoms) S := by
  induction h generalizing fuel with
  | close seed rest =>
    obtain ⟨fuel, rfl⟩ := Nat.exists_eq_add_one_of_ne_zero (Nat.pos_iff_ne_zero.mp
      (Nat.lt_of_lt_of_le (Nat.succ_pos _) hfuel))
    refine ⟨[], ?_, Nat.lt_succ_self _, fun b => ⟨false, rfl, by simp⟩⟩
    rw [parseMembers, if_pos ⟨rfl, rfl⟩]
  | cons hopen hmember hrest ih =>
    obtain ⟨byte, next, atom, rfl, hparse, hlen, hatom⟩ := hmember.parse hrest.mem
    obtain ⟨fuel, rfl⟩ := Nat.exists_eq_add_one_of_ne_zero (Nat.pos_iff_ne_zero.mp
      (Nat.lt_of_lt_of_le (Nat.succ_pos _) hfuel))
    obtain ⟨atoms, heq, hlt, hatoms⟩ := ih (hlen.trans (Nat.le_of_succ_le_succ hfuel))
    refine ⟨atom :: atoms, ?_, ?_, someAtom_cons hatom hatoms⟩
    · rw [parseMembers, if_neg, hparse]
      · simp only [Option.bind_eq_bind, Option.bind_some, heq]
        rfl
      · rintro ⟨rfl, rfl⟩
        rcases hopen with h | h
        · cases h
        · exact h rfl
    · rw [length_cons]
      omega

theorem bracketTest_computes {atoms : List BracketAtom}
    (h : Computes (fun b => someAtom b atoms) S) (negated : Bool) :
    Computes (bracketTest negated atoms) (if negated then Sᶜ else S) := by
  intro b
  obtain ⟨verdict, heq, hiff⟩ := h b
  refine ⟨negated != verdict, ?_, ?_⟩
  · dsimp only at heq
    rw [bracketTest, heq]
    rfl
  cases negated with
  | false =>
    rw [if_neg Bool.false_ne_true, ← hiff]
    cases verdict <;> simp
  | true =>
    rw [if_pos rfl, Set.mem_compl_iff, ← hiff]
    cases verdict <;> simp

/-- **The scanner reads a set.** -/
theorem Bracket.parse {bytes rest : Bytes} (h : Bracket bytes S rest) :
    ∃ test, parseBracket bytes = some (test, rest) ∧ rest.length < bytes.length ∧
      Computes test S := by
  cases h with
  | negated hnegated h =>
    rename_i b body S
    obtain ⟨atoms, heq, hlt, hatoms⟩ := h.parse le_rfl
    have hhead : (b :: body).head? = some bang ∨ (b :: body).head? = some caret :=
      hnegated.imp (congrArg some) (congrArg some)
    refine ⟨bracketTest true atoms, ?_, hlt.trans (Nat.lt_succ_self _),
      bracketTest_computes hatoms true⟩
    rw [parseBracket]
    simp only [if_pos hhead, tail_cons, heq, decide_eq_true hhead]
    rfl
  | plain hbang hcaret h =>
    obtain ⟨atoms, heq, hlt, hatoms⟩ := h.parse le_rfl
    have hhead : ¬(bytes.head? = some bang ∨ bytes.head? = some caret) :=
      not_or.mpr ⟨hbang, hcaret⟩
    refine ⟨bracketTest false atoms, ?_, hlt, bracketTest_computes hatoms false⟩
    rw [parseBracket]
    simp only [if_neg hhead, heq, decide_eq_false hhead]
    rfl

theorem Member.class_name {seed seed' : Option UInt8} {name rest bytes' : Bytes}
    (hname : rbracket ∉ name)
    (h : Member seed (lbracket :: colon :: (name ++ colon :: rbracket :: rest)) S seed' bytes') :
    ∃ c : ClassName, name = encode c.text := by
  generalize hbytes : lbracket :: colon :: (name ++ colon :: rbracket :: rest) = bytes at h
  cases h with
  | escaped c rest => exact absurd (cons_eq_cons.mp hbytes).1 (by decide)
  | range lo rest hclose hescape => exact absurd (cons_eq_cons.mp hbytes).1 (by decide)
  | rangeEscaped lo hi rest => exact absurd (cons_eq_cons.mp hbytes).1 (by decide)
  | named seed c rest =>
    have htail := (cons_eq_cons.mp (cons_eq_cons.mp hbytes).2).2
    have hstop {text : Bytes} (htext : rbracket ∉ text) : rbracket ∉ text ++ [colon] := by
      rw [mem_append, not_or]
      exact ⟨htext, by decide⟩
    have hleft := (takeWhile_before (hstop hname) rest).1
    have hright := (takeWhile_before (hstop (rbracket_not_mem_text c)) bytes').1
    simp only [append_assoc, singleton_append] at hleft hright
    rw [htail] at hleft
    exact ⟨c, append_cancel_right (hleft.symm.trans hright)⟩
  | byte hescape hdash hclass =>
    obtain ⟨rfl, rfl⟩ := cons_eq_cons.mp hbytes
    exact absurd ⟨name, rest, rfl, hname⟩ (hclass rfl)

theorem not_wellFormed_of_class (name rest : Bytes) (hname : rbracket ∉ name)
    (hclass : ∀ c : ClassName, name ≠ encode c.text) (pathname : Bool) :
    ¬WellFormed pathname
      (lbracket :: lbracket :: colon :: (name ++ colon :: rbracket :: rest)) := by
  rintro ⟨items, hreads⟩
  generalize hbytes : lbracket :: lbracket :: colon :: (name ++ colon :: rbracket :: rest) = bytes
    at hreads
  have hstars {n : ℕ} {tail : Bytes} (h : lbracket :: lbracket :: colon ::
      (name ++ colon :: rbracket :: rest) = replicate (n + 1) star ++ tail) : False := by
    rw [replicate_succ, cons_append] at h
    exact absurd (cons_eq_cons.mp h).1 (by decide)
  cases hreads with
  | done => cases hbytes
  | anyRun hdialect hrest h => exact hstars hbytes
  | segmentRun hdialect hrest hwhole h => exact hstars hbytes
  | dirsRun hdialect hwhole h => exact hstars hbytes
  | crossingRun hdialect hrest hslash hwhole h => exact hstars hbytes
  | question h => exact absurd (cons_eq_cons.mp hbytes).1 (by decide)
  | escape h => exact absurd (cons_eq_cons.mp hbytes).1 (by decide)
  | literal hplain h => exact hplain.2.2.2 (cons_eq_cons.mp hbytes).1.symm
  | bracket hset h =>
    obtain ⟨-, rfl⟩ := cons_eq_cons.mp hbytes
    generalize hbody : lbracket :: colon :: (name ++ colon :: rbracket :: rest) = body at hset
    cases hset with
    | negated hnegated h =>
      have hhead := (cons_eq_cons.mp hbody).1
      rw [← hhead] at hnegated
      exact absurd hnegated (by decide)
    | plain hbang hcaret h =>
      cases h with
      | cons hopen hmember hrest =>
        rw [← hbody] at hmember
        obtain ⟨c, hc⟩ := hmember.class_name hname
        exact hclass c hc

/-! ### The scanner reads a pattern -/

/-- The source's dialect of a grammar. -/
def dialectOf (pathname : Bool) : Dialect := if pathname then pathnameDialect else refDialect

/-- A token stands for what an item does. -/
inductive Means : RefGlobToken → Item → Prop
  | star : Means .star .star
  | segment : Means .segment .segment
  | dirs : Means .dirs .dirs
  | one {test : ByteTest} {S : Set UInt8} (h : Computes test S) : Means (.one test) (.one S)

variable {before : Option UInt8}

theorem isWholeSegmentRun_iff {count : ℕ} {rest : Bytes} :
    isWholeSegmentRun before count rest = true ↔ WholeSegment before count rest := by
  rw [isWholeSegmentRun, WholeSegment, decide_eq_true_iff]
  refine and_congr_right fun _ => and_congr_right fun _ => or_congr_right (or_congr ?_ ?_)
  · cases rest with
    | nil => simp
    | cons b rest => simp
  cases rest with
  | nil => simp
  | cons b rest =>
    cases rest with
    | nil => simp
    | cons c rest => simp

theorem single_computes {test : ByteTest} (h : Computes test S)
    (pathname : Bool) : Computes ((dialectOf pathname).single test) (single pathname S) := by
  cases pathname with
  | false => exact h
  | true =>
    intro b
    obtain ⟨verdict, heq, hiff⟩ := h b
    by_cases hslash : b = slash
    · refine ⟨false, if_pos hslash, ?_⟩
      simp [single, hslash]
    · refine ⟨verdict, (if_neg hslash).trans heq, hiff.trans ?_⟩
      simp [single, hslash]

theorem byte_computes (c : UInt8) : Computes (fun b => .ok (b == c)) {c} := fun b =>
  ⟨_, rfl, by rw [beq_iff_eq, Set.mem_singleton_iff]⟩

theorem scanToken_stars (dialect : Dialect) (before : Option UInt8) {rest : Bytes}
    (hrest : rest.head? ≠ some star) (n : ℕ) :
    scanToken dialect before star (replicate n star ++ rest) =
      some (dialect.starRun before (n + 1) rest) := by
  obtain ⟨hlen, hdrop⟩ := takeWhile_run hrest n
  rw [scanToken, if_pos rfl, scanStarRun, hlen, hdrop]

variable {items : List Item}

theorem tokenizeFrom_cons {dialect : Dialect} {byte : UInt8} {next : Bytes}
    {scanned : ScannedToken} (hscan : scanToken dialect before byte next = some scanned)
    (hlen : scanned.next.length ≤ next.length) {item : Item}
    (hmeans : Means scanned.token item)
    (hrest : ∀ {fuel : ℕ}, scanned.next.length ≤ fuel → ∃ tokens,
      tokenizeFrom dialect fuel (some scanned.last) scanned.next = some tokens ∧
        List.Forall₂ Means tokens items)
    {fuel : ℕ} (hfuel : (byte :: next).length ≤ fuel) :
    ∃ tokens, tokenizeFrom dialect fuel before (byte :: next) = some tokens ∧
      List.Forall₂ Means tokens (item :: items) := by
  cases fuel with
  | zero => exact absurd hfuel (Nat.not_succ_le_zero _)
  | succ fuel =>
    obtain ⟨tokens, heq, htokens⟩ := hrest (hlen.trans (Nat.le_of_succ_le_succ hfuel))
    refine ⟨scanned.token :: tokens, ?_, .cons hmeans htokens⟩
    rw [tokenizeFrom, hscan]
    simp only [Option.bind_eq_bind, Option.bind_some, heq]
    rfl

/-- **The scanner reads every pattern that the grammar reads.** -/
theorem Reads.tokenizeFrom {pathname : Bool} {bytes : Bytes} (h : Reads pathname before bytes items) {fuel : ℕ}
    (hfuel : bytes.length ≤ fuel) :
    ∃ tokens, tokenizeFrom (dialectOf pathname) fuel before bytes = some tokens ∧
      List.Forall₂ Means tokens items := by
  have hstars (n : ℕ) (rest : Bytes) : rest.length ≤ (replicate n star ++ rest).length := by
    rw [length_append]
    omega
  induction h generalizing fuel with
  | done before =>
    refine ⟨[], ?_, .nil⟩
    cases fuel <;> rfl
  | anyRun hdialect hrest h ih =>
    rename_i n rest items
    subst hdialect
    exact tokenizeFrom_cons (scanToken_stars refDialect _ hrest n) (hstars n rest) .star ih hfuel
  | segmentRun hdialect hrest hwhole h ih =>
    rename_i before n rest items
    subst hdialect
    have hscan := scanToken_stars pathnameDialect before hrest n
    have hrun : pathnameDialect.starRun before (n + 1) rest = ⟨.segment, star, rest⟩ := by
      change pathnameStarRun before (n + 1) rest = _
      have hno := (not_congr isWholeSegmentRun_iff).mpr hwhole
      rw [pathnameStarRun, Bool.eq_false_of_not_eq_true hno]
      rfl
    rw [hrun] at hscan
    exact tokenizeFrom_cons hscan (hstars n rest) .segment ih hfuel
  | dirsRun hdialect hwhole h ih =>
    rename_i before n rest items
    subst hdialect
    have hslash : (slash :: rest).head? ≠ some star := by simp [slash, star]
    have hscan := scanToken_stars pathnameDialect before hslash n
    have hrun :
        pathnameDialect.starRun before (n + 1) (slash :: rest) = ⟨.dirs, slash, rest⟩ := by
      change pathnameStarRun before (n + 1) (slash :: rest) = _
      rw [pathnameStarRun, isWholeSegmentRun_iff.mpr hwhole]
      rfl
    rw [hrun] at hscan
    exact
      tokenizeFrom_cons hscan ((Nat.le_succ _).trans (hstars n (slash :: rest))) .dirs ih hfuel
  | crossingRun hdialect hrest hslash hwhole h ih =>
    rename_i before n rest items
    subst hdialect
    have hscan := scanToken_stars pathnameDialect before hrest n
    have hrun : pathnameDialect.starRun before (n + 1) rest = ⟨.star, star, rest⟩ := by
      change pathnameStarRun before (n + 1) rest = _
      rw [pathnameStarRun, isWholeSegmentRun_iff.mpr hwhole]
      exact if_neg hslash
    rw [hrun] at hscan
    exact tokenizeFrom_cons hscan (hstars n rest) .star ih hfuel
  | question h ih =>
    rename_i before rest items
    have hall : Computes (fun _ => .ok true) Set.univ := fun b => ⟨true, rfl, by simp⟩
    have hscan : scanToken (dialectOf pathname) before RefGlob.question rest =
        some ⟨.one ((dialectOf pathname).single fun _ => .ok true), RefGlob.question, rest⟩ := rfl
    exact tokenizeFrom_cons hscan le_rfl (.one (single_computes hall pathname)) ih hfuel
  | escape h ih =>
    rename_i before c rest items
    have hscan : scanToken (dialectOf pathname) before backslash (c :: rest) =
        some ⟨.one fun b => .ok (b == c), c, rest⟩ := rfl
    exact tokenizeFrom_cons hscan (Nat.le_succ _) (.one (byte_computes c)) ih hfuel
  | bracket hset h ih =>
    obtain ⟨test, hparse, hlt, htest⟩ := hset.parse
    rename_i before bytes rest S items
    have hscan : scanToken (dialectOf pathname) before lbracket bytes =
        some ⟨.one ((dialectOf pathname).single test), rbracket, rest⟩ := by
      rw [scanToken, if_neg (by decide), if_neg (by decide), if_neg (by decide), if_pos rfl, hparse]
      rfl
    exact tokenizeFrom_cons hscan hlt.le (.one (single_computes htest pathname)) ih hfuel
  | literal hplain h ih =>
    rename_i before b rest items
    obtain ⟨hstar, hquestion, hbackslash, hbracket⟩ := hplain
    have hscan : scanToken (dialectOf pathname) before b rest =
        some ⟨.one fun b' => .ok (b' == b), b, rest⟩ := by
      rw [scanToken, if_neg hstar, if_neg hquestion, if_neg hbackslash, if_neg hbracket]
    exact tokenizeFrom_cons hscan le_rfl (.one (byte_computes b)) ih hfuel

theorem Reads.tokenize {pathname : Bool} {pattern : Bytes}
    (h : Reads pathname none pattern items) :
    ∃ tokens, RefGlob.tokenize (dialectOf pathname) pattern = some tokens ∧
      List.Forall₂ Means tokens items :=
  h.tokenizeFrom le_rfl

end Tsgit.RefGlob
