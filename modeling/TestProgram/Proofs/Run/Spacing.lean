import TestProgram.Proofs.Run.Relocation
import TestProgram.Proofs.Script.Spacing

/-!
# Spacing and runs

Blank lines, comments, semicolons and the blanks between words do not change what a script generates:
sources of the same essence are both misspelled, or they generate the same and report the same problems
(`Script.run_of_essence`). The places of the problems may differ.
-/

namespace TestProgram

namespace Script

/-- A text without bad characters is a script if its tokens spell one. -/
theorem ofSource_eq_ok {source : String} (h : Scan.unrecognized source = []) (s : Script) :
    ofSource source = .ok s ↔ ofTokens source = .ok s := by
  refine ⟨ofTokens_of_ofSource, fun htokens => ?_⟩
  rw [ofSource, complaints, h, htokens]
  rfl

/-- How a script is laid out does not matter. -/
theorem run_of_essence {source source' : String} (hsource : Scan.unrecognized source = [])
    (hsource' : Scan.unrecognized source' = [])
    (hessence : Lexeme.essence (Lexeme.ofSource source) = Lexeme.essence (Lexeme.ofSource source')) :
    ((∃ s, ofSource source = .ok s) ↔ ∃ s', ofSource source' = .ok s') ∧
    ∀ s s', ofSource source = .ok s → ofSource source' = .ok s' → ∀ config,
      (s.run config).1 = (s'.run config).1 ∧
        (s.run config).2.map Diagnostic.problem = (s'.run config).2.map Diagnostic.problem := by
  simp only [ofSource_eq_ok hsource, ofSource_eq_ok hsource', ofTokens]
  refine ⟨⟨fun ⟨s, hs⟩ => ?_, fun ⟨s', hs'⟩ => ?_⟩, fun s s' hs hs' config => ?_⟩
  · obtain ⟨s', hs', -⟩ := exists_of_essence ⟨0, 0⟩ source'.utf8ByteSize hessence hs
    exact ⟨s', hs'⟩
  · obtain ⟨s, hs, -⟩ := exists_of_essence ⟨0, 0⟩ source.utf8ByteSize hessence.symm hs'
    exact ⟨s, hs⟩
  · obtain ⟨s'', hs'', hrelocate⟩ := exists_of_essence ⟨0, 0⟩ source'.utf8ByteSize hessence hs
    obtain rfl := Except.ok.inj (hs'.symm.trans hs'')
    obtain ⟨hproduct, hproblems⟩ := run_relocate (fun _ => ⟨0, 0⟩) s config
    obtain ⟨hproduct', hproblems'⟩ := run_relocate (fun _ => ⟨0, 0⟩) s' config
    rw [hrelocate] at hproduct' hproblems'
    exact ⟨hproduct.symm.trans hproduct', hproblems.symm.trans hproblems'⟩

def plainFlow : String := "flow f \x7b\ntest a\n\x7d\n"

/-- The same flow with a comment, semicolons and blanks. -/
def spacedFlow : String := "# start\nflow f \x7b ; \n\n  test a;;\x7d"

theorem exists_plainFlow : ∃ s, ofSource plainFlow = .ok s := by
  cases h : ofSource plainFlow with
  | ok s => exact ⟨s, rfl⟩
  | error e =>
    have hok : (ofSource plainFlow).isOk = true := by decide +kernel
    rw [h] at hok
    cases hok

theorem spacedFlow_run : Scan.unrecognized plainFlow = [] ∧ Scan.unrecognized spacedFlow = [] ∧
    Lexeme.essence (Lexeme.ofSource plainFlow) = Lexeme.essence (Lexeme.ofSource spacedFlow) ∧
    ∃ s s', ofSource plainFlow = .ok s ∧ ofSource spacedFlow = .ok s' ∧ ∀ config,
      (s.run config).1 = (s'.run config).1 ∧
        (s.run config).2.map Diagnostic.problem = (s'.run config).2.map Diagnostic.problem := by
  have hplain : Scan.unrecognized plainFlow = [] := by decide +kernel
  have hspaced : Scan.unrecognized spacedFlow = [] := by decide +kernel
  have hessence : Lexeme.essence (Lexeme.ofSource plainFlow) = Lexeme.essence (Lexeme.ofSource spacedFlow) := by
    decide +kernel
  obtain ⟨s, hs⟩ := exists_plainFlow
  obtain ⟨hboth, hruns⟩ := run_of_essence hplain hspaced hessence
  obtain ⟨s', hs'⟩ := hboth.mp ⟨s, hs⟩
  exact ⟨hplain, hspaced, hessence, s, s', hs, hs', hruns s s' hs hs'⟩

end Script

end TestProgram
