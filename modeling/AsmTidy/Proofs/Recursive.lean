import Mathlib
import AsmTidy.Proofs.Walk
import AsmTidy.Proofs.Destinations

/-!
# Recursive runs

A recursive run walks the directory given as input and tidies in place every file below it
whose name matches the pattern. Each file is read once and written once, and a file's new
content depends on its own old content only, so the order of the walk changes the order of
the printed lines and nothing else.

**One step** (`Session.fixInPlace_of_names`). Tidying in place a file that its path names
prints `Fixing` and the path; then the file's verdict decides: an ignored file is announced
and left, a file that cannot be tidied stops the run with its parse error, and any other
file is replaced by its tidy text.

**A whole run** (`Options.foldlM_visit_tidyAll`). Visiting files that are all different, by
paths that name them, stops at the first of them that cannot be tidied. When none fails,
the run ends with every visited file retouched (`retouched`) and every other file kept, one
`Fixing` line per visited file and one `Ignoring` line per ignored one.

Main result:

* `recursive_run_tidies_each_match`: in a well-formed tree, a recursive run from a directory
  stops exactly when some matching file below it that is not ignored cannot be tidied, and
  only with a parse error. Otherwise it leaves every matching file as tidying it in place
  would, keeps every other file, and prints one `Fixing` line per matching file and one
  `Ignoring` line per ignored one. The same holds when the walk's entries are visited in
  any other order.
-/

namespace AsmTidy.Cli

/-- What becomes of a file of content `c`, in the dialect `d`. -/
def fileVerdict (d : Dialect) (c : String) : Verdict :=
  Verdict.of d true (normalizeNewlines c.toList)

/-- The content a file of content `c` is left with when it is tidied in place: its tidy text,
or `c` itself when it asks to be left alone. -/
def retouched (d : Dialect) (c : String) : String :=
  match fileVerdict d c with
  | .tidied text => String.ofList text
  | _ => c

/-- The parse error of the first file that cannot be tidied, if there is one. -/
def firstFailure (d : Dialect) (gs : List (Path × String)) : Option ParseError :=
  gs.findSome? fun f =>
    match fileVerdict d f.2 with
    | .invalid e => some e
    | _ => none

namespace Session

/-- The session after the files `gs` are tidied in place, each announced by the path `shown`
gives it: the files retouched, a `Fixing` line for each, an `Ignoring` line for each ignored
one. -/
def tidyAll (s : Session) (d : Dialect) (shown : Path → String) (gs : List (Path × String)) :
    Session :=
  { s with
    workspace := ⟨s.workspace.files.map fun f => if f ∈ gs then (f.1, retouched d f.2) else f⟩
    stderr := s.stderr ++ String.join (gs.map fun f => "Fixing " ++ shown f.1 ++ "\n")
    stdout := s.stdout ++ String.join ((gs.filter fun f => fileVerdict d f.2 == .ignored).map
      fun f => "Ignoring " ++ shown f.1 ++ "\n") }

variable {s : Session} {d : Dialect}

theorem tidyAll_nil (shown : Path → String) : s.tidyAll d shown [] = s := by
  simp [tidyAll]

/-- Tidying the files `g :: gs` is tidying `g` in place, then the others from the session
that leaves. -/
theorem tidyAll_cons (hnd : (s.workspace.files.map Prod.fst).Nodup) {g : Path × String}
    {gs : List (Path × String)} (hg : g ∈ s.workspace.files) (hfresh : g.1 ∉ gs.map Prod.fst)
    (shown : Path → String) :
    s.tidyAll d shown (g :: gs) =
      ({ s with
        workspace := s.workspace.put g.1 (retouched d g.2)
        stderr := s.stderr ++ "Fixing " ++ shown g.1 ++ "\n"
        stdout := s.stdout ++
          if fileVerdict d g.2 = .ignored then "Ignoring " ++ shown g.1 ++ "\n" else "" } :
        Session).tidyAll d shown gs := by
  obtain ⟨q, c⟩ := g
  have hnot : ∀ c', (q, c') ∉ gs := fun c' h => hfresh (List.mem_map.mpr ⟨_, h, rfl⟩)
  simp only [tidyAll, Workspace.put_of_mem hg, List.map_map]
  congr 1
  · congr 1
    refine List.map_congr_left fun f hf => ?_
    by_cases hfq : f.1 = q
    · -- the paths are all different, so the file at `q` is the one tidied first
      obtain rfl : f = (q, c) := List.inj_on_of_nodup_map hnd hf hg hfq
      simp [hnot]
    · have hne : f ≠ (q, c) := fun h => hfq (by rw [h])
      simp [hfq, hne]
  · by_cases hi : fileVerdict d c = .ignored <;> simp [hi, String.append_assoc]
  · simp [String.append_assoc]

variable {P : String} {q : Path} {c : String}

/-- Tidying in place a file that its path names: the path is announced, then the file's
verdict decides. -/
theorem fixInPlace_of_names (hP : P ≠ "-") (hn : s.workspace.Names P q)
    (he : s.workspace.entry q = .file c) :
    s.fixInPlace d P =
      match fileVerdict d c with
      | .ignored => .ok { s with
          stderr := s.stderr ++ "Fixing " ++ P ++ "\n"
          stdout := s.stdout ++ "Ignoring " ++ P ++ "\n" }
      | .invalid e => .error (.parse e)
      | .tidied text => .ok { s with
          stderr := s.stderr ++ "Fixing " ++ P ++ "\n"
          workspace := s.workspace.put q (String.ofList text) } := by
  -- the announcement changes only what was printed, so the file reads as before
  let s' : Session := { s with stderr := s.stderr ++ "Fixing " ++ P ++ "\n" }
  have hread : s'.workspace.read P = .ok c := Workspace.read_eq_ok_iff.mpr ⟨q, hn, he⟩
  have hfile : (P != "-") = true := bne_iff_ne.mpr hP
  unfold fixInPlace
  rw [fix_of_source (source_of_read hP hread)]
  simp only [hfile, fileVerdict]
  cases Verdict.of d true (normalizeNewlines c.toList) with
  | ignored => rfl
  | invalid e => rfl
  | tidied text =>
    simp only [destination, if_true]
    exact writeFile_of_names (s := s') hn he _

end Session

namespace Options

variable (o : Options)

/-- A visit passes over a file whose name does not match, so a run visits the matching entries
only. -/
theorem foldlM_visit_filter (s : Session) (es : List (String × String)) :
    List.foldlM o.visit s es =
      List.foldlM o.visit s (es.filter fun e => Glob.accepts o.pattern.toList e.1.toList) := by
  induction es generalizing s with
  | nil => rfl
  | cons e es ih =>
    by_cases h : Glob.accepts o.pattern.toList e.1.toList = true
    · simp only [List.foldlM_cons, List.filter_cons, h, if_true, ih]
    · simp only [List.foldlM_cons, List.filter_cons, h, visit]
      exact ih s

/-- Visiting matching files that are all different, each by a path that names it, stops with
the parse error of the first that cannot be tidied, and otherwise tidies them all. -/
theorem foldlM_visit_tidyAll (shown : Path → String × String) (gs : List (Path × String))
    (s : Session) (hnd : (s.workspace.files.map Prod.fst).Nodup) (hgs : (gs.map Prod.fst).Nodup)
    (hvisit : ∀ f ∈ gs, f ∈ s.workspace.files ∧ s.workspace.Names (shown f.1).2 f.1 ∧
      (shown f.1).2 ≠ "-" ∧ Glob.accepts o.pattern.toList (shown f.1).1.toList = true) :
    List.foldlM o.visit s (gs.map fun f => shown f.1) =
      match firstFailure o.dialect gs with
      | some e => .error (.parse e)
      | none => .ok (s.tidyAll o.dialect (fun q => (shown q).2) gs) := by
  -- induction on the files, from the session each visit leaves
  induction gs generalizing s with
  | nil =>
    rw [Session.tidyAll_nil]
    rfl
  | cons g gs ih =>
    obtain ⟨q, c⟩ := g
    obtain ⟨hg, hn, hP, hacc⟩ := hvisit (q, c) List.mem_cons_self
    obtain ⟨hfresh, hgs'⟩ := List.nodup_cons.mp hgs
    have he := Workspace.entry_of_mem hnd hg
    have hstep : o.visit s (shown q) = s.fixInPlace o.dialect (shown q).2 := by
      simp [visit, hacc]
    rw [List.map_cons, List.foldlM_cons, hstep, Session.fixInPlace_of_names hP hn he,
      Session.tidyAll_cons hnd hg hfresh]
    cases hv : fileVerdict o.dialect c with
    | invalid e => simp [firstFailure, hv, bind, Except.bind]
    | ignored =>
      have hfirst : firstFailure o.dialect ((q, c) :: gs) = firstFailure o.dialect gs := by
        simp [firstFailure, hv]
      have hkeep : s.workspace.put q (retouched o.dialect c) = s.workspace := by
        simp only [retouched, hv]
        exact Workspace.put_self hnd hg
      simp only [hfirst, hkeep, if_true, String.append_assoc]
      exact ih _ hnd hgs' fun f hf => hvisit f (List.mem_cons_of_mem _ hf)
    | tidied text =>
      have hfirst : firstFailure o.dialect ((q, c) :: gs) = firstFailure o.dialect gs := by
        simp [firstFailure, hv]
      have hput : retouched o.dialect c = String.ofList text := by simp [retouched, hv]
      simp only [hfirst, hput, reduceCtorEq, if_false, String.append_empty]
      -- the other files are still there, and their paths still name them
      refine ih _ ?_ hgs' fun f hf => ?_
      · rw [Workspace.put_of_mem hg, Workspace.map_fst_replace]
        exact hnd
      · obtain ⟨hf₁, hf₂, hf₃, hf₄⟩ := hvisit f (List.mem_cons_of_mem _ hf)
        have hfq : f.1 ≠ q := fun h => hfresh (List.mem_map.mpr ⟨f, hf, h⟩)
        refine ⟨?_, Workspace.names_put hf₂ he _, hf₃, hf₄⟩
        rw [Workspace.put_of_mem hg]
        exact List.mem_map.mpr ⟨f, hf₁, if_neg hfq⟩

/-! ## Recursive runs from a directory -/

/-- Whether a recursive run from the directory at `p` tidies the file `f`: the file lies below
`p`, and its name matches the pattern. -/
def selects (p : Path) (f : Path × String) : Bool :=
  p.isPrefixOf f.1 && p.length < f.1.length &&
    Glob.accepts o.pattern.toList (f.1.getLast?.getD "").toList

/-- The path a walk from the input shows for the file at `q`, below the directory at `p`. -/
def shownAt (p q : Path) : String :=
  Workspace.joinPath o.infile (q.drop p.length)

/-- What a recursive run from the directory at `p` ends with, whatever the order in which it
visits the files. -/
structure Tidies (s : Session) (p : Path) (r : Except Failure Session) : Prop where
  /-- It stops exactly when a selected file that is not ignored cannot be tidied. -/
  stops_iff : (∃ e, r = .error e) ↔
    ∃ f ∈ s.workspace.files, o.selects p f = true ∧ ∃ e, fileVerdict o.dialect f.2 = .invalid e
  /-- It stops with a parse error only: every file it opens can be read and written. -/
  parse_only : ∀ e, r = .error e → ∃ pe, e = .parse pe
  /-- Otherwise each selected file is left as tidying it in place leaves it, every other file
  is kept, and the run prints one `Fixing` line for each selected file and one `Ignoring` line
  for each ignored one, in some order. -/
  finished : ∀ t, r = .ok t →
    t.stdin = s.stdin ∧
    t.workspace = ⟨s.workspace.files.map fun f =>
      if o.selects p f then (f.1, retouched o.dialect f.2) else f⟩ ∧
    (∃ L : List String, L.Perm ((s.workspace.files.filter (o.selects p)).map fun f =>
        "Fixing " ++ o.shownAt p f.1 ++ "\n") ∧ t.stderr = s.stderr ++ String.join L) ∧
    ∃ L : List String, L.Perm (((s.workspace.files.filter (o.selects p)).filter fun f =>
        fileVerdict o.dialect f.2 == .ignored).map fun f => "Ignoring " ++ o.shownAt p f.1 ++ "\n") ∧
      t.stdout = s.stdout ++ String.join L

variable {o}

/-- Tidying, in any order, the files a recursive run selects ends as `Tidies` says. -/
theorem tidies_of_perm {s : Session} {p : Path} {M : List (Path × String)}
    (hM : M.Perm (s.workspace.files.filter (o.selects p))) :
    o.Tidies s p (match firstFailure o.dialect M with
      | some e => .error (.parse e)
      | none => .ok (s.tidyAll o.dialect (o.shownAt p) M)) := by
  have hmem : ∀ f ∈ s.workspace.files, f ∈ M ↔ o.selects p f = true := fun f hf => by
    rw [hM.mem_iff, List.mem_filter]
    exact and_iff_right hf
  refine ⟨⟨fun ⟨e, he⟩ => ?_, fun ⟨f, hf, hsel, e, he⟩ => ?_⟩, fun e he => ?_, fun t ht => ?_⟩
  · -- an error is the verdict of a selected file
    cases hff : firstFailure o.dialect M with
    | none => simp [hff] at he
    | some pe =>
      obtain ⟨f, hf, hfe⟩ := List.exists_of_findSome?_eq_some hff
      obtain ⟨hf₁, hf₂⟩ := List.mem_filter.mp (hM.subset hf)
      refine ⟨f, hf₁, hf₂, pe, ?_⟩
      split at hfe
      · cases hfe
        assumption
      · cases hfe
  · -- a selected file that cannot be tidied makes the first failure exist
    have hsome : firstFailure o.dialect M ≠ none := by
      rw [ne_eq, firstFailure, List.findSome?_eq_none_iff]
      intro hnone
      simpa [he] using hnone f ((hmem f hf).mpr hsel)
    obtain ⟨pe, hpe⟩ := Option.ne_none_iff_exists'.mp hsome
    exact ⟨.parse pe, by simp [hpe]⟩
  · cases hff : firstFailure o.dialect M with
    | none => simp [hff] at he
    | some pe =>
      simp only [hff, Except.error.injEq] at he
      exact ⟨pe, he.symm⟩
  · cases hff : firstFailure o.dialect M with
    | some pe => simp [hff] at ht
    | none =>
      simp only [hff, Except.ok.injEq] at ht
      subst ht
      refine ⟨rfl, ?_, ⟨_, hM.map _, rfl⟩, ⟨_, (hM.filter _).map _, rfl⟩⟩
      simp only [Session.tidyAll]
      congr 1
      exact List.map_congr_left fun f hf => by simp only [hmem f hf]

/-- A path strictly below `p` is `p` followed by more names. -/
theorem exists_append_of_below {p q : Path}
    (h : (p.isPrefixOf q && decide (p.length < q.length)) = true) :
    ∃ rel, rel ≠ [] ∧ q = p ++ rel := by
  simp only [Bool.and_eq_true, List.isPrefixOf_iff_prefix, decide_eq_true_eq] at h
  obtain ⟨⟨rel, rfl⟩, hlen⟩ := h
  refine ⟨rel, ?_, rfl⟩
  rintro rfl
  simp at hlen

/-- Whatever order the walk's entries are visited in, the run tidies the selected files in
some order. -/
theorem foldlM_visit_of_perm_walk {s : Session} {p : Path} (hw : s.workspace.WellFormed)
    (htop : o.infile ≠ "")
    (hdir : s.workspace.descend o.infile (Route.parse o.infile).start
      (Route.parse o.infile).names = .ok (.inside p))
    {fs : List (String × String)} (hfs : fs.Perm (s.workspace.walk o.infile)) :
    ∃ M : List (Path × String), M.Perm (s.workspace.files.filter (o.selects p)) ∧
      List.foldlM o.visit s fs =
        match firstFailure o.dialect M with
        | some e => .error (.parse e)
        | none => .ok (s.tidyAll o.dialect (o.shownAt p) M) := by
  let below : Path × String → Bool := fun f => p.isPrefixOf f.1 && p.length < f.1.length
  let shown : Path → String × String :=
    fun q => ((q.drop p.length).getLast?.getD "", o.shownAt p q)
  -- the visits follow some order of the files below the directory
  obtain ⟨gs, rfl, hgs⟩ : Relation.Comp (· = List.map (fun f => shown f.1) ·) List.Perm fs
      (s.workspace.files.filter below) := by
    rw [List.eq_map_comp_perm]
    exact hfs.trans (Workspace.walk_perm htop hdir)
  have hbelow : ∀ f ∈ gs, f ∈ s.workspace.files ∧ ∃ rel, rel ≠ [] ∧ f.1 = p ++ rel := by
    intro f hf
    obtain ⟨hf₁, hf₂⟩ := List.mem_filter.mp (hgs.subset hf)
    exact ⟨hf₁, exists_append_of_below hf₂⟩
  refine ⟨gs.filter fun f => Glob.accepts o.pattern.toList (shown f.1).1.toList, ?_, ?_⟩
  · -- a file below the directory is selected when its last name matches
    refine (hgs.filter _).trans (List.Perm.of_eq ?_)
    rw [List.filter_filter]
    refine List.filter_congr fun f _ => ?_
    cases hb : below f
    · have hb' : (p.isPrefixOf f.1 && decide (p.length < f.1.length)) = false := hb
      simp only [selects, hb', Bool.false_and, Bool.and_false]
    · have hb' : (p.isPrefixOf f.1 && decide (p.length < f.1.length)) = true := hb
      have hlen : ¬ f.1.length ≤ p.length := by
        simp only [Bool.and_eq_true, decide_eq_true_eq] at hb'
        omega
      simp only [selects, shown, hb', Bool.true_and, Bool.and_true, List.getLast?_drop,
        if_neg hlen]
  · rw [foldlM_visit_filter, List.filter_map]
    refine foldlM_visit_tidyAll o shown _ s hw.nodup ?_ fun f hf => ?_
    · -- the paths of different files are different
      refine List.Nodup.sublist ((List.filter_sublist).map _) ?_
      rw [hgs.map _ |>.nodup_iff]
      exact hw.nodup.sublist ((List.filter_sublist).map _)
    · obtain ⟨hgf, hacc⟩ := List.mem_filter.mp hf
      obtain ⟨hf₁, rel, hrel, hq⟩ := hbelow f hgf
      obtain ⟨q, c⟩ := f
      simp only at hq
      subst hq
      have hshow : (shown (p ++ rel)).2 = Workspace.joinPath o.infile rel := by
        simp [shown, shownAt]
      refine ⟨hf₁, ?_, ?_, hacc⟩
      · rw [hshow]
        exact Workspace.names_joinPath hw htop hdir hf₁ hrel
      · rw [hshow]
        exact Workspace.joinPath_ne_dash _ _

end Options

/-- A recursive run from a directory of a well-formed tree tidies every file below it whose name
matches the pattern, as tidying it in place would, and keeps every other file. It stops exactly
when one of those files, not ignored, cannot be tidied, and then with a parse error. It prints
one `Fixing` line per matching file and one `Ignoring` line per ignored one. Visiting the walk's
entries in any other order ends the same way, but for the order of those lines. -/
theorem recursive_run_tidies_each_match (o : Options) (s : Session) {p : Path}
    (hw : s.workspace.WellFormed) (htop : o.infile ≠ "")
    (hdir : s.workspace.descend o.infile (Route.parse o.infile).start
      (Route.parse o.infile).names = .ok (.inside p))
    (hrec : o.recursive = true) :
    o.Tidies s p (o.perform s) ∧
      ∀ fs, fs.Perm (s.workspace.walk o.infile) → o.Tidies s p (List.foldlM o.visit s fs) := by
  have hany : ∀ fs, fs.Perm (s.workspace.walk o.infile) →
      o.Tidies s p (List.foldlM o.visit s fs) := by
    intro fs hfs
    obtain ⟨M, hM, hrun⟩ := Options.foldlM_visit_of_perm_walk hw htop hdir hfs
    rw [hrun]
    exact Options.tidies_of_perm hM
  refine ⟨?_, hany⟩
  rw [Options.perform, if_pos hrec]
  exact hany _ (List.Perm.refl _)

theorem recursive_run_tidies_src :
    let s : Session :=
      { stdin := ""
        workspace := ⟨[(["src", "a.s"], "nop\n"), (["src", "b.txt"], "x"),
          (["src", "lib", "c.s"], "; nice65: ignore\n"), (["top.s"], "lda (\n")]⟩ }
    let o : Options := { infile := "src", recursive := true }
    s.workspace.WellFormed ∧ o.infile ≠ "" ∧
      s.workspace.descend o.infile (Route.parse o.infile).start (Route.parse o.infile).names =
        .ok (.inside ["src"]) ∧ o.recursive = true ∧
      (o.Tidies s ["src"] (o.perform s) ∧
        ∀ fs, fs.Perm (s.workspace.walk o.infile) →
          o.Tidies s ["src"] (List.foldlM o.visit s fs)) := by
  intro s o
  have hw : s.workspace.WellFormed := ⟨by decide, by unfold ProperName; decide, by decide⟩
  have htop : o.infile ≠ "" := by decide
  have hdir : s.workspace.descend o.infile (Route.parse o.infile).start
      (Route.parse o.infile).names = .ok (.inside ["src"]) := by decide +kernel
  exact ⟨hw, htop, hdir, rfl, recursive_run_tidies_each_match o s hw htop hdir rfl⟩

end AsmTidy.Cli
