import Mathlib
import AsmTidy.Cli.Workspace

/-!
# Reading back what was written

A written path is resolved once, to the directory its last name is in, and the same
resolution serves reading and writing. This module follows a path that names a file through
`Workspace.read` and `Workspace.write`.

**Naming a file** (`Workspace.Names`). The path resolves to a directory of the working
directory and a last name that is not `.` or `..`, and it does not end with a slash. Such a
path is read from, and written to, the file at that directory and name.

**Replacing a file.** Writing a file that exists replaces its content and keeps every path, so
every directory stays a directory, every other file keeps its content, and every path still
resolves as before.

Main results:

* `Workspace.read_eq_ok_iff`: a path is read exactly when it names a file;
* `Workspace.write_of_names`: writing to a path that names a file replaces that file;
* `Workspace.read_put_of_names`: after the replacement the path reads back the new content.
-/

namespace AsmTidy.Cli

namespace Workspace

variable {w : Workspace} {p q : Path} {c c₀ : String}

/-! ## Replacing the content of a file -/

/-- Replacing the content at `p` keeps every path. -/
theorem map_fst_replace (files : List (Path × String)) (p : Path) (c : String) :
    (files.map fun f => if f.1 = p then (p, c) else f).map Prod.fst = files.map Prod.fst := by
  simp only [List.map_map]
  refine List.map_congr_left fun f _ => ?_
  by_cases hf : f.1 = p <;> simp [hf]

theorem lookup_cons_ite {k q : Path} {v : String} {l : List (Path × String)} :
    ((k, v) :: l).lookup q = if q = k then some v else l.lookup q := by
  by_cases h : q = k
  · subst h
    simp
  · have hb : (q == k) = false := beq_eq_false_iff_ne.mpr h
    simp [List.lookup_cons, hb, h]

theorem lookup_replace (files : List (Path × String)) (p q : Path) (c : String) :
    (files.map fun f => if f.1 = p then (p, c) else f).lookup q =
      if q = p then (files.lookup p).map fun _ => c else files.lookup q := by
  induction files with
  | nil => simp
  | cons f files ih =>
    obtain ⟨k, v⟩ := f
    by_cases hk : k = p
    · subst hk
      by_cases hq : q = k <;> simp [lookup_cons_ite, hq, ih]
    · by_cases hq : q = p
      · subst hq
        simp [lookup_cons_ite, hk, Ne.symm hk, ih]
      · by_cases hqk : q = k <;> simp [lookup_cons_ite, hk, hq, hqk, ih]

/-- In a list whose paths are all different, a path looks up the content stored with it. -/
theorem lookup_of_mem {files : List (Path × String)} (hnd : (files.map Prod.fst).Nodup)
    (h : (p, c) ∈ files) : files.lookup p = some c := by
  induction files with
  | nil => cases h
  | cons f files ih =>
    obtain ⟨k, v⟩ := f
    rw [List.map_cons, List.nodup_cons] at hnd
    rcases List.mem_cons.mp h with hpk | hmem
    · simp only [Prod.mk.injEq] at hpk
      obtain ⟨rfl, rfl⟩ := hpk
      simp
    · have hne : p ≠ k := by
        rintro rfl
        exact hnd.1 (List.mem_map.mpr ⟨_, hmem, rfl⟩)
      rw [lookup_cons_ite, if_neg hne]
      exact ih hnd.2 hmem

/-- In a directory whose paths are all different, every file's path names that file. -/
theorem entry_of_mem (hnd : (w.files.map Prod.fst).Nodup) (h : (p, c) ∈ w.files) :
    w.entry p = .file c := by
  simp [entry, lookup_of_mem hnd h]

/-- Replacing a file that is there rewrites it where it stands. -/
theorem put_of_mem (h : (p, c₀) ∈ w.files) (c : String) :
    w.put p c = ⟨w.files.map fun f => if f.1 = p then (p, c) else f⟩ := by
  have hany : w.files.any (·.1 == p) = true := List.any_eq_true.mpr ⟨_, h, beq_self_eq_true p⟩
  simp only [put, hany, if_true, beq_iff_eq]

/-- Writing a file's own content back leaves the directory as it is. -/
theorem put_self (hnd : (w.files.map Prod.fst).Nodup) (h : (p, c) ∈ w.files) : w.put p c = w := by
  rw [put_of_mem h]
  obtain ⟨files⟩ := w
  congr 1
  conv_rhs => rw [← List.map_id files]
  refine List.map_congr_left fun f hf => ?_
  split_ifs with hp
  · -- the paths are all different, so the file at `p` is `(p, c)`
    exact List.inj_on_of_nodup_map hnd h hf hp.symm
  · rfl

/-- A path that names a file is one of the working directory's paths. -/
theorem lookup_of_entry (h : w.entry p = .file c₀) : w.files.lookup p = some c₀ := by
  unfold entry at h
  split at h
  · cases h
    assumption
  · split at h <;> cases h

/-- Replacing a file that exists changes what its own path names, and nothing else. -/
theorem entry_put (h : w.entry p = .file c₀) (c : String) (q : Path) :
    (w.put p c).entry q = if q = p then .file c else w.entry q := by
  have hl := lookup_of_entry h
  have hany : w.files.any (·.1 == p) = true := by
    have hsome : (w.files.lookup p).isSome = true := by rw [hl]; rfl
    obtain ⟨x, hx, hpx⟩ := List.lookup_isSome_iff.mp hsome
    rw [beq_iff_eq] at hpx
    exact List.any_eq_true.mpr ⟨x, hx, beq_iff_eq.mpr hpx.symm⟩
  have hpaths := map_fst_replace w.files p c
  unfold put entry
  rw [if_pos hany]
  simp only [beq_iff_eq, lookup_replace, hl]
  by_cases hq : q = p
  · simp [hq]
  · simp only [hq, if_false]
    -- the directories are found among the same paths
    have key : ∀ l : List (Path × String),
        (l.any fun f => q.isPrefixOf f.1) = (l.map Prod.fst).any q.isPrefixOf := fun l => by
      simp [List.any_map, Function.comp_def]
    rw [key, key, hpaths]

/-- What a step of a walk down the directories sees is the same after a file is replaced: the
file's path still names a file. -/
theorem descend_put (h : w.entry p = .file c₀) (c raw : String) (place : Place)
    (ns : List String) : (w.put p c).descend raw place ns = w.descend raw place ns := by
  induction ns generalizing place with
  | nil => rfl
  | cons n ns ih =>
    simp only [descend, ih]
    split_ifs
    · rfl
    · rfl
    · cases place with
      | outside => rfl
      | inside q =>
        simp only [entry_put h]
        by_cases hq : q ++ [n] = p
        · simp [hq, h]
        · simp [hq]

theorem locate_put (h : w.entry p = .file c₀) (c raw : String) :
    (w.put p c).locate raw = w.locate raw := by
  simp only [locate, descend_put h]

/-! ## Paths that name files -/

/-- The written path `raw` names the file at `p`: it resolves to a directory and a last name
that together are `p`, the last name is not `.` or `..`, and no slash ends it. -/
def Names (w : Workspace) (raw : String) (p : Path) : Prop :=
  ∃ q name, w.locate raw = .ok (.inside q, name) ∧ p = q ++ [name] ∧ name ≠ "." ∧ name ≠ ".." ∧
    (Route.parse raw).trailingSlash = false

variable {raw : String}

theorem read_of_names (hn : w.Names raw p) :
    w.read raw = match w.entry p with
      | .file c => .ok c
      | .directory => .error (.isDirectory raw)
      | .missing => .error (.notFound raw) := by
  obtain ⟨q, name, hl, rfl, h₁, h₂, ht⟩ := hn
  have hdot : (name == "." || name == "..") = false := by simp [h₁, h₂]
  simp only [read, hl, bind, Except.bind, hdot, Bool.false_eq_true, if_false]
  split <;> simp_all [throw, throwThe, MonadExceptOf.throw, pure, Except.pure]

/-- A path is read exactly when it names a file, and it reads that file's content. -/
theorem read_eq_ok_iff : w.read raw = .ok c ↔ ∃ p, w.Names raw p ∧ w.entry p = .file c := by
  constructor
  · intro h
    unfold read at h
    cases hl : w.locate raw with
    | error e => simp [hl, bind, Except.bind] at h
    | ok r =>
      obtain ⟨dir, name⟩ := r
      simp only [hl, bind, Except.bind] at h
      split at h
      · cases h
      · next hdot =>
        cases dir with
        | outside => cases h
        | inside q =>
          simp only at h
          split at h
          · next content he =>
            split at h
            · cases h
            · next ht =>
              cases h
              simp only [Bool.or_eq_true, beq_iff_eq, not_or] at hdot
              exact ⟨q ++ [name], ⟨q, name, hl, rfl, hdot.1, hdot.2, by simpa using ht⟩, he⟩
          · cases h
          · cases h
  · rintro ⟨p, hn, he⟩
    rw [read_of_names hn, he]

/-- Writing to a path that names a file replaces that file. -/
theorem write_of_names (hn : w.Names raw p) (hp : w.entry p = .file c₀) (text : String) :
    w.write raw text = .ok (w.put p text) := by
  obtain ⟨q, name, hl, rfl, h₁, h₂, ht⟩ := hn
  have hdot : (name == "." || name == ".." || (Route.parse raw).trailingSlash) = false := by
    simp [h₁, h₂, ht]
  simp only [write, hl, bind, Except.bind, hdot, Bool.false_eq_true, if_false, hp]
  rfl

/-- After a file is replaced, every path names what it named before. -/
theorem names_put (hn : w.Names raw q) (hp : w.entry p = .file c₀) (c : String) :
    (w.put p c).Names raw q := by
  obtain ⟨q', name, hl, he, h₁, h₂, ht⟩ := hn
  exact ⟨q', name, by rw [locate_put hp, hl], he, h₁, h₂, ht⟩

/-- A replaced file reads back its new content. -/
theorem read_put_of_names (hn : w.Names raw p) (hp : w.entry p = .file c₀) (c : String) :
    (w.put p c).read raw = .ok c := by
  rw [read_of_names (names_put hn hp c), entry_put hp, if_pos rfl]

end Workspace

end AsmTidy.Cli
