import Mathlib
import AsmTidy.Cli.Run
import AsmTidy.Proofs.Workspace
import AsmTidy.Proofs.Directive

/-!
# One source, three destinations

A source file is tidied the same way wherever the tidy text goes.

**Theorem (`fix_file_like_stdin`).** Let the path `P` name a file of content `raw`, and let
`c` be `raw` with its line breaks normalized. The run leaves everything as it is and prints
`Ignoring P` exactly when the first directive of `c` (`Directive.FirstIn`) has `ignore` among
its options. Otherwise the tidy text of `c`, or its error, decides all three destinations:

* to standard output, the run prints what it prints when `raw` comes on standard input;
* to the file `F`, it writes that text to `F`;
* in place, it replaces the file at `P`'s path, which then reads back that text.

An error stops each of them before anything is written.

The proof reads the source once (`Session.source_of_read`), decides the directive by
`Directive.ignores_iff`, and for the in-place write uses that the path it read names a file
(`Workspace.read_eq_ok_iff`), so writing it succeeds and reads back.
-/

namespace AsmTidy.Cli

open Directive

namespace Session

variable {s : Session} {d : Dialect} {P raw : String}

theorem source_of_read (hP : P ≠ "-") (hread : s.workspace.read P = .ok raw) :
    s.source P = .ok (normalizeNewlines raw.toList) := by
  simp [source, hP, hread]

/-- Tidying a source that was read: a file with an ignoring directive is announced and left,
otherwise the tidy text goes to its destination. -/
theorem fix_of_source {infile : String} {c : List Char} (h : s.source infile = .ok c)
    (out : String) (m : Bool) :
    s.fix d infile out m =
      match Verdict.of d (infile != "-") c with
      | .ignored => .ok { s with stdout := s.stdout ++ "Ignoring " ++ infile ++ "\n" }
      | .invalid e => .error (.parse e)
      | .tidied text =>
        match destination infile out m with
        | .stdout => .ok { s with stdout := s.stdout ++ String.ofList text }
        | .file path => s.writeFile path (String.ofList text) := by
  simp only [fix, h, bind, Except.bind]
  rfl

/-- Standard input is tidied and printed; it is never checked for a directive. -/
theorem fix_stdin (d : Dialect) (raw : String) :
    { s with stdin := raw }.fix d "-" "-" false =
      ((Source.format d (normalizeNewlines raw.toList)).mapError .parse).map
        fun text => { s with stdin := raw, stdout := s.stdout ++ String.ofList text } := by
  rw [fix_of_source (c := normalizeNewlines raw.toList) rfl]
  simp only [Verdict.of, bne_self_eq_false, Bool.false_and, Bool.false_eq_true, if_false,
    destination]
  cases Source.format d (normalizeNewlines raw.toList) <;> rfl

/-- A file without an ignoring directive is tidied, and the text or the error decides the
destination's fate. -/
theorem fix_file (hP : P ≠ "-") (hread : s.workspace.read P = .ok raw)
    (hkeep : ignores (normalizeNewlines raw.toList) = false) (out : String) (m : Bool) :
    s.fix d P out m =
      ((Source.format d (normalizeNewlines raw.toList)).mapError .parse).bind fun text =>
        match destination P out m with
        | .stdout => .ok { s with stdout := s.stdout ++ String.ofList text }
        | .file path => s.writeFile path (String.ofList text) := by
  have hfile : (P != "-") = true := bne_iff_ne.mpr hP
  rw [fix_of_source (source_of_read hP hread)]
  simp only [Verdict.of, hfile, hkeep, Bool.true_and, Bool.false_eq_true, if_false]
  cases Source.format d (normalizeNewlines raw.toList) <;> rfl

/-- A file with an ignoring directive is announced, and nothing else happens. -/
theorem fix_file_ignored (hP : P ≠ "-") (hread : s.workspace.read P = .ok raw)
    (hignore : ignores (normalizeNewlines raw.toList) = true) (out : String) (m : Bool) :
    s.fix d P out m = .ok { s with stdout := s.stdout ++ "Ignoring " ++ P ++ "\n" } := by
  have hfile : (P != "-") = true := bne_iff_ne.mpr hP
  rw [fix_of_source (source_of_read hP hread)]
  simp only [Verdict.of, hfile, hignore, Bool.and_self, if_true]

/-- Writing to a path that names a file replaces that file. -/
theorem writeFile_of_names {p : Path} {c₀ : String} (hn : s.workspace.Names P p)
    (hp : s.workspace.entry p = .file c₀) (text : String) :
    s.writeFile P text = .ok { s with workspace := s.workspace.put p text } := by
  simp [writeFile, Workspace.write_of_names hn hp]

end Session

/-- Appending a non-empty text changes what was printed. -/
theorem append_ne_self {a b : String} (hb : b ≠ "") : a ≠ a ++ b := by
  intro h
  have := congrArg String.toList h
  rw [String.toList_append, List.self_eq_append_right] at this
  exact hb (String.toList_eq_nil_iff.mp this)

/-- A file is tidied as standard input is, unless its first directive says `ignore`; the tidy
text, or the error, then decides every destination, and an error writes nothing. -/
theorem fix_file_like_stdin (s : Session) (d : Dialect) {P raw : String} (hP : P ≠ "-")
    (hread : s.workspace.read P = .ok raw) :
    ((∀ out m, s.fix d P out m = .ok { s with stdout := s.stdout ++ "Ignoring " ++ P ++ "\n" }) ↔
        ∃ o, FirstIn (normalizeNewlines raw.toList) o ∧ (words o).any isIgnore = true) ∧
      (ignores (normalizeNewlines raw.toList) = false →
        s.fix d P "-" false =
            ({ s with stdin := raw }.fix d "-" "-" false).map
              (fun t : Session => { t with stdin := s.stdin }) ∧
        (∀ F, F ≠ "-" → s.fix d P F false =
            ((Source.format d (normalizeNewlines raw.toList)).mapError .parse).bind
              fun text => s.writeFile F (String.ofList text)) ∧
        ∃ p, (∀ out, s.fix d P out true =
            ((Source.format d (normalizeNewlines raw.toList)).mapError .parse).map
              fun text => { s with workspace := s.workspace.put p (String.ofList text) }) ∧
          ∀ text, (s.workspace.put p text).read P = .ok text) := by
  obtain ⟨p, hn, he⟩ := Workspace.read_eq_ok_iff.mp hread
  refine ⟨⟨fun hall => ?_, fun hex out m => ?_⟩, fun hkeep => ⟨?_, fun F hF => ?_, p, ?_, ?_⟩⟩
  · -- a tidied file is written in place, which prints nothing, so it was not tidied
    rw [← ignores_iff]
    by_contra hkeep
    have h := hall "-" true
    rw [Session.fix_file hP hread (Bool.not_eq_true _ ▸ hkeep)] at h
    cases hf : Source.format d (normalizeNewlines raw.toList) with
    | error e =>
      rw [hf] at h
      cases h
    | ok text =>
      simp only [hf, Except.mapError, Except.bind, destination, if_true,
        Session.writeFile_of_names hn he, Except.ok.injEq] at h
      have hout := congrArg Session.stdout h
      simp only [String.append_assoc] at hout
      exact append_ne_self (by simp [← String.toList_inj]) hout
  · exact Session.fix_file_ignored hP hread ((ignores_iff _).mpr hex) out m
  · rw [Session.fix_file hP hread hkeep, Session.fix_stdin]
    cases Source.format d (normalizeNewlines raw.toList) <;> rfl
  · have hdest : destination P F false = .file F := by simp [destination, hF]
    rw [Session.fix_file hP hread hkeep]
    simp only [hdest]
  · intro out
    rw [Session.fix_file hP hread hkeep]
    cases Source.format d (normalizeNewlines raw.toList) with
    | error e => rfl
    | ok text =>
      simp only [Except.mapError, Except.bind, Except.map, destination, if_true]
      exact Session.writeFile_of_names hn he _
  · exact fun text => Workspace.read_put_of_names hn he text

theorem fix_file_like_stdin_nop :
    let s : Session := { stdin := "", workspace := ⟨[(["a.s"], "nop\n")]⟩ }
    ("a.s" ≠ "-" ∧ s.workspace.read "a.s" = .ok "nop\n") ∧
    ((∀ out m, s.fix .standard "a.s" out m =
          .ok { s with stdout := s.stdout ++ "Ignoring " ++ "a.s" ++ "\n" }) ↔
        ∃ o, FirstIn (normalizeNewlines "nop\n".toList) o ∧ (words o).any isIgnore = true) ∧
      (ignores (normalizeNewlines "nop\n".toList) = false →
        s.fix .standard "a.s" "-" false =
            ({ s with stdin := "nop\n" }.fix .standard "-" "-" false).map
              (fun t : Session => { t with stdin := s.stdin }) ∧
        (∀ F, F ≠ "-" → s.fix .standard "a.s" F false =
            ((Source.format .standard (normalizeNewlines "nop\n".toList)).mapError .parse).bind
              fun text => s.writeFile F (String.ofList text)) ∧
        ∃ p, (∀ out, s.fix .standard "a.s" out true =
            ((Source.format .standard (normalizeNewlines "nop\n".toList)).mapError .parse).map
              fun text => { s with workspace := s.workspace.put p (String.ofList text) }) ∧
          ∀ text, (s.workspace.put p text).read "a.s" = .ok text) := by
  intro s
  have hP : "a.s" ≠ "-" := by decide
  have hread : s.workspace.read "a.s" = .ok "nop\n" := by decide +kernel
  exact ⟨⟨hP, hread⟩, fix_file_like_stdin s .standard hP hread⟩

/-- The white space after a directive's semicolon may hold a line break. A comment line `;`
followed by the line `nice65: ignore` has no directive on one line, yet the file is left alone,
while the same text on standard input is tidied. -/
theorem fix_file_ignores_across_line_break :
    let s : Session :=
      { stdin := ";\nnice65: ignore\n", workspace := ⟨[(["input.s"], ";\nnice65: ignore\n")]⟩ }
    (s.fix .standard "input.s" "-" false).map (·.stdout) = .ok "Ignoring input.s\n" ∧
      (s.fix .standard "-" "-" false).map (·.stdout) = .ok ";\nnice65: ignore\n" := by
  decide +kernel

end AsmTidy.Cli
