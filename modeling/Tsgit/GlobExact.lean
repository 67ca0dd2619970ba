import Tsgit.CompileGlob
import Tsgit.RefGlobExact

/-!
# Globs Accept What They Denote

Both programs of globs together. A path glob always accepts the paths it denotes; a ref glob and
a path-name glob do, unless a set names a property that the table of class names inherits.
-/

namespace Tsgit.RefGlob

/-- **Globs accept exactly what they denote**. -/
theorem globs_exact (pathname : Bool) (pattern : Bytes) :
    ((∀ text, ∃ verdict, compileBytesWith (dialectOf pathname) pattern text = .ok verdict ∧
        (verdict = true ↔ Denotes pathname pattern text)) ↔
      ∀ tokens, tokenize (dialectOf pathname) pattern = some tokens →
        WellFormed pathname pattern ∨ Blocked tokens) ∧
    ∀ glob options path, CompileGlob.compileGlob glob options path = true ↔
      CompileGlob.Denotes glob options path :=
  ⟨compileBytesWith_exact pathname pattern, CompileGlob.compileGlob_exact⟩

/-- `[[:constructor:]]`, a set with a class that is none of the twelve. -/
def inheritedPattern : Bytes := encode "[[:constructor:]]".toList

theorem inheritedPattern_not_wellFormed (pathname : Bool) :
    ¬WellFormed pathname inheritedPattern :=
  not_wellFormed_of_class (encode "constructor".toList) [rbracket] (by decide)
    (by intro c; cases c <;> decide) pathname

/-- The pattern denotes nothing, and accepts the text `a`. -/
theorem globs_inherited :
    compileRefGlob "[[:constructor:]]".toList "a".toList = .ok true ∧
      ∀ text, ¬Denotes false (encode "[[:constructor:]]".toList) text := by
  refine ⟨by rfl, fun text => ?_⟩
  rintro ⟨items, hreads, -⟩
  exact inheritedPattern_not_wellFormed false ⟨items, hreads⟩

end Tsgit.RefGlob
