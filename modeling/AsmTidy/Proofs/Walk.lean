import Mathlib
import AsmTidy.Proofs.Workspace

/-!
# The files a walk visits

A walk from a directory lists the files below it, each shown as the directory's path joined
to the names below it. This module shows that a walk lists every file below the directory
once, and that the path it shows for a file leads back to that file.

**Well-formed trees** (`Workspace.WellFormed`). A working directory that a real tree gives:
no two files share a path, every name is a proper name (not empty, not `.` or `..`, without a
slash), and no file lies below another file.

**Joined paths.** Joining a top path and names below it gives a path whose names are the top's
names followed by those names, which starts where the top starts and does not end with a slash
(`Route.parse_joinPath_names`).

Main results:

* `Workspace.walk_perm`: a walk lists each file below the directory once, in some order;
* `Workspace.names_joinPath`: in a well-formed tree, the path shown for a file names it.
-/

namespace AsmTidy.Cli

/-- A name that a directory entry can have: not empty, not `.` or `..`, and without a slash. -/
def ProperName (n : String) : Prop := n ≠ "" ∧ n ≠ "." ∧ n ≠ ".." ∧ '/' ∉ n.toList

/-- The working directory of a real tree. -/
structure Workspace.WellFormed (w : Workspace) : Prop where
  /-- No two files share a path. -/
  nodup : (w.files.map Prod.fst).Nodup
  /-- Every name on a path is a proper name. -/
  proper : ∀ f ∈ w.files, ∀ n ∈ f.1, ProperName n
  /-- No file lies below another file. -/
  flat : ∀ f ∈ w.files, ∀ g ∈ w.files, f.1 <+: g.1 → f.1 = g.1

/-! ## Names of a written path -/

/-- The steps of a path's characters between slashes, without the empty ones. -/
def stepsOf (cs : List Char) : List String :=
  ((cs.splitOn '/').filter (· ≠ [])).map String.ofList

theorem Route.parse_names (raw : String) : (Route.parse raw).names = stepsOf raw.toList := rfl

theorem stepsOf_nil : stepsOf [] = [] := rfl

theorem stepsOf_append_slash (X Y : List Char) :
    stepsOf (X ++ '/' :: Y) = stepsOf X ++ stepsOf Y := by
  simp [stepsOf, List.splitOn_append_cons_self, List.filter_append]

theorem stepsOf_concat_slash (X : List Char) : stepsOf (X ++ ['/']) = stepsOf X := by
  simpa [stepsOf_nil] using stepsOf_append_slash X []

/-- Proper names joined by slashes are read back as those names. -/
theorem stepsOf_intercalate {rel : List String} (hrel : rel ≠ [])
    (hn : ∀ n ∈ rel, n ≠ "" ∧ '/' ∉ n.toList) :
    stepsOf (['/'].intercalate (rel.map String.toList)) = rel := by
  have hsplit : (['/'].intercalate (rel.map String.toList)).splitOn '/' = rel.map String.toList :=
    List.splitOn_intercalate '/' (by simpa using fun n h => (hn n h).2) (by simpa using hrel)
  have hkeep : (rel.map String.toList).filter (· ≠ []) = rel.map String.toList := by
    refine List.filter_eq_self.mpr fun cs hcs => ?_
    obtain ⟨n, hn', rfl⟩ := List.mem_map.mp hcs
    simpa using (hn n hn').1
  simp only [stepsOf, hsplit, hkeep, List.map_map]
  conv_rhs => rw [← List.map_id rel]
  exact List.map_congr_left fun n _ => by simp

theorem endsWith_slash_iff (s : String) : s.endsWith "/" = true ↔ s.toList.getLast? = some '/' := by
  show s.toSlice.endsWith "/" = true ↔ _
  rw [String.Slice.endsWith_string_iff]
  simp [List.singleton_suffix_iff_getLast?_eq_some]

theorem startsWith_slash_iff (s : String) :
    s.startsWith "/" = true ↔ s.toList.head? = some '/' := by
  rw [String.startsWith_string_iff]
  simp [List.singleton_prefix_iff_head?_eq_some]

/-! ## Joined paths -/

theorem joinPath_toList (top : String) (rel : List String) :
    (Workspace.joinPath top rel).toList = top.toList ++ (if top.toList.getLast? = some '/' then [] else ['/']) ++
      ['/'].intercalate (rel.map String.toList) := by
  unfold Workspace.joinPath
  by_cases h : top.toList.getLast? = some '/'
  · simp [(endsWith_slash_iff top).mpr h, h, String.toList_intercalate]
  · have h' : top.endsWith "/" = false :=
      Bool.eq_false_iff.mpr fun he => h ((endsWith_slash_iff top).mp he)
    simp [h', h, String.toList_intercalate]

section Joined

variable {top : String} {rel : List String}

/-- The names of a joined path: the top's names, then the names below it. -/
theorem Route.parse_joinPath_names (hrel : rel ≠ []) (hn : ∀ n ∈ rel, n ≠ "" ∧ '/' ∉ n.toList) :
    (Route.parse (Workspace.joinPath top rel)).names = (Route.parse top).names ++ rel := by
  rw [Route.parse_names, Route.parse_names, joinPath_toList]
  split_ifs with h
  · obtain ⟨X, hX⟩ := List.getLast?_eq_some_iff.mp h
    rw [hX, List.append_nil, List.append_assoc, List.singleton_append, stepsOf_append_slash,
      stepsOf_intercalate hrel hn, stepsOf_concat_slash]
  · rw [List.append_assoc, List.singleton_append, stepsOf_append_slash,
      stepsOf_intercalate hrel hn]

/-- A joined path starts where its top starts. -/
theorem Route.parse_joinPath_start (htop : top ≠ "") :
    (Route.parse (Workspace.joinPath top rel)).start = (Route.parse top).start := by
  have hne : top.toList ≠ [] := by simpa using htop
  have habs : (Workspace.joinPath top rel).startsWith "/" = top.startsWith "/" := by
    rw [Bool.eq_iff_iff, startsWith_slash_iff, startsWith_slash_iff, joinPath_toList,
      List.append_assoc, List.head?_append_of_ne_nil _ hne]
  unfold Route.start Route.parse
  rw [habs]

/-- A joined path does not end with a slash: its last name does not. -/
theorem Route.parse_joinPath_trailingSlash (hrel : rel ≠ [])
    (hn : ∀ n ∈ rel, n ≠ "" ∧ '/' ∉ n.toList) :
    (Route.parse (Workspace.joinPath top rel)).trailingSlash = false := by
  -- the names below, joined by slashes, split back into the names, the last of them not empty
  set I := ['/'].intercalate (rel.map String.toList) with hI
  have hsplit : I.splitOn '/' = rel.map String.toList :=
    List.splitOn_intercalate '/' (by simpa using fun n h => (hn n h).2) (by simpa using hrel)
  have hlast : ((rel.map String.toList).getLast?).all (· ≠ []) = true := by
    obtain ⟨rel', n, rfl⟩ := (List.eq_nil_or_concat rel).resolve_left hrel
    simpa using (hn n (by simp)).1
  have hIne : I ≠ [] := by
    rintro hnil
    rw [hnil, List.splitOn_nil] at hsplit
    rw [← hsplit] at hlast
    simp at hlast
  simp only [Route.parse]
  rw [Bool.eq_false_iff]
  intro ht
  rw [endsWith_slash_iff, joinPath_toList, List.getLast?_append_of_ne_nil _ hIne] at ht
  obtain ⟨J, hJ⟩ := List.getLast?_eq_some_iff.mp ht
  have hcut : (J ++ ['/']).splitOn '/' = J.splitOn '/' ++ [[]] := by
    simpa using List.splitOn_append_cons_self (a := '/') J []
  rw [hJ, hcut] at hsplit
  rw [← hsplit] at hlast
  simp at hlast

end Joined

namespace Workspace

variable {w : Workspace}

/-! ## Going down the directories -/

/-- Following names one after another is following the first ones, then the rest from where
they lead. -/
theorem descend_append (raw : String) (place : Place) (ns ns' : List String) :
    w.descend raw place (ns ++ ns') = (w.descend raw place ns).bind fun p => w.descend raw p ns' := by
  induction ns generalizing place with
  | nil => rfl
  | cons n ns ih =>
    simp only [List.cons_append, descend]
    split <;> simp_all [Except.bind]

/-- Where a descent ends does not depend on the path its errors would name. -/
theorem descend_ok_raw {raw raw' : String} {place place' : Place} {ns : List String}
    (h : w.descend raw place ns = .ok place') : w.descend raw' place ns = .ok place' := by
  induction ns generalizing place with
  | nil => exact h
  | cons n ns ih =>
    -- the first name leads to the same place whatever the path is: only errors name it
    by_cases h₁ : n = "."
    · simp only [descend, h₁, beq_self_eq_true, if_true] at h ⊢
      exact ih h
    by_cases h₂ : n = ".."
    · subst h₂
      simp only [descend, beq_self_eq_true, if_true] at h ⊢
      exact ih (by simpa using h)
    cases place with
    | outside => simp [descend, h₁, h₂] at h
    | inside p =>
      cases he : w.entry (p ++ [n]) <;> simp [descend, h₁, h₂, he] at h ⊢
      exact ih h

/-- Names that are each a directory, and not `.` or `..`, are followed down to the last. -/
theorem descend_dirs (raw : String) (p : Path) (ns : List String)
    (hdots : ∀ n ∈ ns, n ≠ "." ∧ n ≠ "..")
    (hdirs : ∀ ys, ys ≠ [] → ys <+: ns → w.entry (p ++ ys) = .directory) :
    w.descend raw (.inside p) ns = .ok (.inside (p ++ ns)) := by
  induction ns generalizing p with
  | nil => simp [descend]
  | cons n ns ih =>
    have hn := hdots n List.mem_cons_self
    have hd : w.entry (p ++ [n]) = .directory := hdirs [n] (by simp) (by simp)
    have hrest := ih (p ++ [n]) (fun m hm => hdots m (List.mem_cons_of_mem n hm))
      fun ys hys hpre => by
        simpa using hdirs (n :: ys) (by simp) (List.cons_prefix_cons.mpr ⟨rfl, hpre⟩)
    simp [descend, hn.1, hn.2, hd, hrest]

/-- In a real tree, a path strictly above a file is a directory. -/
theorem entry_above_file (hw : w.WellFormed) {q q' : Path} {c : String} (hf : (q', c) ∈ w.files)
    (hpre : q <+: q') (hne : q ≠ q') : w.entry q = .directory := by
  have hnone : w.files.lookup q = none := by
    rw [List.lookup_eq_none_iff]
    intro g hg
    have hgq : g.1 ≠ q := by
      rintro rfl
      exact hne (hw.flat g hg _ hf hpre)
    simpa [bne_iff_ne] using Ne.symm hgq
  have hany : w.files.any (q.isPrefixOf ·.1) = true :=
    List.any_eq_true.mpr ⟨_, hf, List.isPrefixOf_iff_prefix.mpr hpre⟩
  simp [entry, hnone, hany]

/-! ## The entries of a walk -/

/-- A shown path has a slash in it, so it is never `-`, the name of standard input. -/
theorem joinPath_ne_dash (top : String) (rel : Path) : joinPath top rel ≠ "-" := by
  intro h
  have hslash : '/' ∈ (joinPath top rel).toList := by
    rw [joinPath_toList]
    split_ifs with hl
    · exact List.mem_append_left _ (List.mem_append_left _ (List.mem_of_getLast? hl))
    · simp
  rw [h] at hslash
  exact absurd hslash (by decide)

/-- In a real tree, the path a walk from `top` shows for a file below the directory `top`
leads to names that file. -/
theorem names_joinPath (hw : w.WellFormed) {top : String} {p rel : Path} {c : String}
    (htop : top ≠ "")
    (hdir : w.descend top (Route.parse top).start (Route.parse top).names = .ok (.inside p))
    (hf : (p ++ rel, c) ∈ w.files) (hrel : rel ≠ []) :
    w.Names (joinPath top rel) (p ++ rel) := by
  have hproper : ∀ n ∈ rel, ProperName n :=
    fun n hn => hw.proper _ hf n (List.mem_append_right p hn)
  have hn : ∀ n ∈ rel, n ≠ "" ∧ '/' ∉ n.toList :=
    fun n hn => ⟨(hproper n hn).1, (hproper n hn).2.2.2⟩
  have htrail : (Route.parse (joinPath top rel)).trailingSlash = false :=
    Route.parse_joinPath_trailingSlash hrel hn
  have hnames : (Route.parse (joinPath top rel)).names = (Route.parse top).names ++ rel :=
    Route.parse_joinPath_names hrel hn
  have hstart : (Route.parse (joinPath top rel)).start = (Route.parse top).start :=
    Route.parse_joinPath_start htop
  obtain ⟨rel', last, hsplit⟩ := (List.eq_nil_or_concat rel).resolve_left hrel
  rw [List.concat_eq_append] at hsplit
  subst hsplit
  have hlast := hproper last (by simp)
  -- every directory on the way down from `p` lies strictly above the file
  have hdown : w.descend (joinPath top (rel' ++ [last])) (.inside p) rel' =
      .ok (.inside (p ++ rel')) := by
    refine descend_dirs _ p rel' (fun n hn' => ?_) fun ys _ hpre => entry_above_file hw hf ?_ ?_
    · have := hproper n (List.mem_append_left _ hn')
      exact ⟨this.2.1, this.2.2.1⟩
    · exact (List.prefix_append_right_inj p).mpr (hpre.trans (List.prefix_append rel' [last]))
    · intro h
      have hlen := congrArg List.length h
      have := hpre.length_le
      simp only [List.length_append, List.length_singleton] at hlen
      omega
  refine ⟨p ++ rel', last, ?_, by simp, hlast.2.1, hlast.2.2.1, htrail⟩
  unfold locate
  simp only [hnames, hstart, ← List.append_assoc, List.reverse_concat, List.reverse_reverse]
  rw [descend_append, descend_ok_raw hdir]
  simp [Except.bind, hdown, Except.map]

/-- A walk from a directory shows each file below it once, by its last name and by the top
joined to the names below. -/
theorem walk_perm {top : String} {p : Path} (htop : top ≠ "")
    (hdir : w.descend top (Route.parse top).start (Route.parse top).names = .ok (.inside p)) :
    (w.walk top).Perm <| (w.files.filter fun f => p.isPrefixOf f.1 && p.length < f.1.length).map
      fun f => ((f.1.drop p.length).getLast?.getD "", joinPath top (f.1.drop p.length)) := by
  have hne : top.isEmpty = false := by simpa using htop
  simp only [walk, hne, hdir, Bool.false_eq_true, if_false]
  refine ((List.mergeSort_perm _ _).map _).trans (List.Perm.of_eq ?_)
  induction w.files with
  | nil => rfl
  | cons f fs ih =>
    by_cases h : p.isPrefixOf f.1 && p.length < f.1.length <;> simp_all

end Workspace

end AsmTidy.Cli
