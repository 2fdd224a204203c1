import StackAssembler.Output.Writing
import StackAssembler.Proofs.Files.Path

/-!
# Writing into a tree

A path leads to a place by its components alone, provided that what they pass is directories.
Writing a file changes what there is at one place and makes and removes no directory, so every path
leads where it led before.  `Tree.AgreesOff` says of two trees that the later one may come from
writing at some paths: all other places are as they were.

## Main definitions

* `Tree.next`: the place that is one component further.
* `Tree.SamePlace`: two paths lead to one place.
* `Tree.AgreesOff`: what writing at some paths keeps.
-/

namespace StackAssembler.Tree

variable {tree later : Tree} {place reached : Place}

/-! ## Where paths lead -/

/-- One component further. -/
def next (place : Place) (part : List Char) : Place :=
  if part = [] ∨ part = ['.'] then place
  else if part = ['.', '.'] then place.dropLast
  else place ++ [part]

/-- A component is passed in a directory only, and if it is not too long. -/
theorem follow_cons_eq_ok_iff (tree : Tree) (path : String) (place reached : Place)
    (part : List Char) (parts : List (List Char)) :
    tree.follow path place (part :: parts) = .ok reached ↔
      tree.get? place = some .directory ∧ byteLength part ≤ nameLimit ∧
        tree.follow path (next place part) parts = .ok reached := by
  rw [follow]
  cases hget : tree.get? place with
  | none => simp
  | some node =>
      cases node with
      | file data => simp
      | directory =>
          simp only [true_and, next]
          by_cases hdot : part = [] ∨ part = ['.']
          · have hshort : byteLength part ≤ nameLimit := by rcases hdot with rfl | rfl <;> decide
            simp only [if_pos hdot, hshort, true_and]
          · by_cases hup : part = ['.', '.']
            · have hshort : byteLength part ≤ nameLimit := by rw [hup]; decide
              simp only [if_neg hdot, if_pos hup, hshort, true_and]
            · simp only [if_neg hdot, if_neg hup]
              by_cases hlong : nameLimit < byteLength part
              · simp [if_pos hlong, Nat.not_le.2 hlong]
              · simp only [if_neg hlong, Nat.not_lt.1 hlong, true_and]

/-- The place that is reached depends on the components alone. -/
theorem eq_foldl_of_follow {path : String} {parts : List (List Char)}
    (h : tree.follow path place parts = .ok reached) : reached = parts.foldl next place := by
  induction parts generalizing place with
  | nil =>
      cases h
      rfl
  | cons part parts ih => exact ih ((follow_cons_eq_ok_iff ..).1 h).2.2

/-- Components lead to the same place in a tree with the same directories. -/
theorem follow_of_directories
    (hd : ∀ place, tree.get? place = some .directory → later.get? place = some .directory)
    {path : String} {parts : List (List Char)} (h : tree.follow path place parts = .ok reached) :
    later.follow path place parts = .ok reached := by
  induction parts generalizing place with
  | nil => exact h
  | cons part parts ih =>
      obtain ⟨hget, hshort, hrest⟩ := (follow_cons_eq_ok_iff ..).1 h
      exact (follow_cons_eq_ok_iff ..).2 ⟨hd place hget, hshort, ih hrest⟩

theorem locate_eq_ok_iff (tree : Tree) (path : String) (place : Place) :
    tree.locate path = .ok place ↔
      ('\x00' ∉ path.toList ∧ path ≠ "" ∧ byteLength path.toList ≤ pathLimit) ∧
        tree.follow path (Path.start path tree.here) (Path.cut path.toList) = .ok place := by
  rw [locate]
  by_cases hnul : '\x00' ∈ path.toList
  · simp [hnul]
  by_cases hempty : path = ""
  · subst hempty
    simp
  by_cases hlong : pathLimit < byteLength path.toList
  · simp [hnul, hempty, hlong, Nat.not_le.2 hlong]
  · simp only [if_neg hlong, hnul, hempty, Nat.not_lt.1 hlong, not_false_eq_true, ne_eq,
      true_and, if_false]
    cases tree.follow path (Path.start path tree.here) (Path.cut path.toList) <;>
      simp [Except.mapError]

/-- A path with components leads on from where it starts. -/
theorem eq_foldl_of_locate {path : Path} (hn : path.IsNormal) (hne : path.parts ≠ [])
    (h : tree.locate path.text = .ok place) :
    place = path.parts.foldl next (if path.root = "" then tree.here else []) := by
  have hslashes : ∀ (count : Nat) (start : Place),
      (List.replicate count []).foldl next start = start := by
    intro count start
    induction count with
    | zero => rfl
    | succ count ih => rw [List.replicate_succ, List.foldl_cons, next, if_pos (.inl rfl), ih]
  have hfollow := eq_foldl_of_follow ((locate_eq_ok_iff ..).1 h).2
  rw [hn.cut_text hne, List.foldl_append, hslashes, Path.start] at hfollow
  simpa only [hn.head?_text hne, ite_not] using hfollow

/-- Two paths, as they are written on a command line, lead to one place. -/
def SamePlace (tree : Tree) (path other : String) : Prop :=
  ∃ place, tree.locate (Path.ofString path).text = .ok place ∧
    tree.locate (Path.ofString other).text = .ok place

instance (tree : Tree) (path other : String) : Decidable (tree.SamePlace path other) :=
  decidable_of_iff ((tree.locate (Path.ofString path).text).toOption.isSome ∧
      (tree.locate (Path.ofString path).text).toOption =
        (tree.locate (Path.ofString other).text).toOption) <| by
    rw [SamePlace]
    cases tree.locate (Path.ofString path).text <;>
      cases tree.locate (Path.ofString other).text <;> simp [Except.toOption, eq_comm]

/-- Different names beside each other are different places, if one of them has more than two
characters. -/
theorem next_ne_next {name other : List Char} (hne : name ≠ other) (hlength : 2 < other.length) :
    next place name ≠ next place other := by
  have hother : next place other = place ++ [other] := by
    rw [next, if_neg, if_neg]
    · rintro rfl
      simp at hlength
    · rintro (rfl | rfl) <;> simp at hlength
  rw [hother, next]
  split
  · exact fun he => by simpa using congrArg List.length he
  · split
    · intro he
      have hlength := congrArg List.length he
      simp at hlength
    · simpa using hne

/-- **The default output does not lead to the input**, unless it is the input. -/
theorem locate_defaultOutput_ne {input output : Path} (hn : input.IsNormal) {format : String}
    (ho : input.defaultOutput format = .ok output) (hne : output ≠ input)
    (hl : tree.locate input.text = .ok place) : tree.locate output.text ≠ .ok place := by
  have hno := hn.defaultOutput ho
  obtain ⟨init, name, other, hparts, rfl, hlength, -⟩ := Path.exists_of_defaultOutput ho
  have hname : name ≠ other := by
    rintro rfl
    exact hne (by rw [← hparts])
  intro hl'
  have hplace := eq_foldl_of_locate hn (by simp [hparts]) hl
  have hplace' := eq_foldl_of_locate hno (by simp) hl'
  rw [hparts, List.foldl_append] at hplace
  rw [List.foldl_append] at hplace'
  exact next_ne_next hname hlength (hplace.symm.trans hplace')

theorem locate_of_directories (hh : later.here = tree.here)
    (hd : ∀ place, tree.get? place = some .directory → later.get? place = some .directory)
    {path : String} (h : tree.locate path = .ok place) : later.locate path = .ok place := by
  obtain ⟨hpath, hfollow⟩ := (locate_eq_ok_iff ..).1 h
  refine (locate_eq_ok_iff ..).2 ⟨hpath, ?_⟩
  rw [hh]
  exact follow_of_directories hd hfollow

theorem read_eq_ok_iff (tree : Tree) (path : String) (data : List UInt8) :
    tree.read path = .ok data ↔
      ∃ place, tree.locate path = .ok place ∧ tree.get? place = some (.file data) := by
  rw [read, status]
  cases hl : tree.locate path with
  | error failure => simp [bind, Except.bind]
  | ok place =>
      cases hget : tree.get? place with
      | none => simp [bind, Except.bind, hget]
      | some node => cases node <;> simp [bind, Except.bind, pure, Except.pure, hget]

theorem write_eq_ok_iff (tree : Tree) (path : String) (data : List UInt8) (later : Tree) :
    tree.write path data = .ok later ↔ ∃ place, tree.locate path = .ok place ∧
      tree.get? place ≠ some .directory ∧ later = tree.set place (.file data) := by
  rw [write]
  cases hl : tree.locate path with
  | error failure => simp [bind, Except.bind]
  | ok place =>
      by_cases hd : tree.get? place = some .directory
      · simp [bind, Except.bind, hd]
      · simp [bind, Except.bind, pure, Except.pure, hd, eq_comm (a := later)]

theorem put_of_locate {path : Path} (hn : path.IsNormal) (hl : tree.locate path.text = .ok place)
    (hd : tree.get? place ≠ some .directory) (data : List UInt8) :
    tree.put path.text data = .ok (tree.set place (.file data)) := by
  rw [put, hn.ofString_text]
  exact (write_eq_ok_iff ..).2 ⟨place, hl, hd, rfl⟩

/-- A path without components leads to a directory only. -/
theorem parts_ne_nil_of_file {path : String} {data : List UInt8} (hl : tree.locate path = .ok place)
    (hget : tree.get? place = some (.file data)) : (Path.ofString path).parts ≠ [] := by
  intro hparts
  have hdots : ∀ part ∈ Path.cut path.toList, part = [] ∨ part = ['.'] := by
    intro part hm
    by_contra hpart
    rw [not_or] at hpart
    exact List.filter_eq_nil_iff.1 hparts part hm (decide_eq_true hpart)
  have hstay : ∀ (parts : List (List Char)) (start : Place),
      (∀ part ∈ parts, part = [] ∨ part = ['.']) → parts.foldl next start = start := by
    intro parts
    induction parts with
    | nil => exact fun start _ => rfl
    | cons part parts ih =>
        intro start h
        rw [List.forall_mem_cons] at h
        rw [List.foldl_cons, next, if_pos h.1]
        exact ih start h.2
  have hfollow := ((locate_eq_ok_iff ..).1 hl).2
  have hplace := eq_foldl_of_follow hfollow
  rw [hstay _ _ hdots] at hplace
  obtain ⟨part, parts, hcut⟩ := List.exists_cons_of_ne_nil (Path.cut_ne_nil path.toList)
  rw [hcut] at hfollow
  have hstart := ((follow_cons_eq_ok_iff ..).1 hfollow).1
  rw [← hplace, hget] at hstart
  cases hstart

/-! ## Why an access fails -/

section Errors

variable {failure : Failure}

/-- A path without a NUL character fails to lead anywhere for a reason that is told. -/
theorem exists_file_of_locate_error {path : String} (hnul : '\x00' ∉ path.toList)
    (h : tree.locate path = .error failure) : ∃ error, failure = .file error := by
  rw [locate, if_neg hnul] at h
  split at h
  · cases h
    exact ⟨_, rfl⟩
  · split at h
    · cases h
      exact ⟨_, rfl⟩
    · cases hf : tree.follow path (Path.start path tree.here) (Path.cut path.toList) with
      | ok place =>
          rw [hf] at h
          cases h
      | error error =>
          rw [hf] at h
          cases h
          exact ⟨error, rfl⟩

theorem exists_file_of_read_error {path : String} (hnul : '\x00' ∉ path.toList)
    (h : tree.read path = .error failure) : ∃ error, failure = .file error := by
  rw [read, status] at h
  cases hl : tree.locate path with
  | error other =>
      simp only [hl, bind, Except.bind] at h
      cases h
      exact exists_file_of_locate_error hnul hl
  | ok place =>
      cases hget : tree.get? place with
      | none =>
          simp only [hl, hget, bind, Except.bind] at h
          cases h
          exact ⟨_, rfl⟩
      | some node =>
          cases node with
          | file data => simp [hl, hget, bind, Except.bind, pure, Except.pure] at h
          | directory =>
              simp only [hl, hget, bind, Except.bind, pure, Except.pure] at h
              cases h
              exact ⟨_, rfl⟩

/-- Writing to a usable path fails for a reason that is told. -/
theorem exists_file_of_put_error {path : Path} (hn : path.IsNormal) (hu : path.IsUsable)
    {data : List UInt8} (h : tree.put path.text data = .error failure) :
    ∃ error, failure = .file error := by
  rw [put, hn.ofString_text, write] at h
  cases hl : tree.locate path.text with
  | error other =>
      simp only [hl, bind, Except.bind] at h
      cases h
      exact exists_file_of_locate_error (hu.notMem_text hn) hl
  | ok place =>
      simp only [hl, bind, Except.bind] at h
      split at h
      · cases h
        exact ⟨_, rfl⟩
      · cases h

end Errors

/-! ## What writing keeps -/

theorem ne_root_of_not_directory (h : tree.get? place ≠ some .directory) : place ≠ [] := by
  rintro rfl
  exact h rfl

theorem get?_set_file (h : tree.get? place ≠ some .directory) (data : List UInt8) (other : Place) :
    (tree.set place (.file data)).get? other =
      if other = place then some (.file data) else tree.get? other :=
  get?_set tree (.file data) (ne_root_of_not_directory h)

/-- The later tree may come from writing at some paths. -/
structure AgreesOff (paths : List Path) (tree later : Tree) : Prop where
  here : later.here = tree.here
  directory : ∀ place, later.get? place = some .directory ↔ tree.get? place = some .directory
  other : ∀ place, (∀ path ∈ paths, tree.locate path.text ≠ .ok place) →
    later.get? place = tree.get? place

namespace AgreesOff

variable {paths more : List Path} {last : Tree}

theorem refl (paths : List Path) (tree : Tree) : AgreesOff paths tree tree :=
  ⟨rfl, fun _ => Iff.rfl, fun _ _ => rfl⟩

/-- Paths lead where they led. -/
theorem locate_eq_ok_iff (h : AgreesOff paths tree later) (path : String) (place : Place) :
    later.locate path = .ok place ↔ tree.locate path = .ok place :=
  ⟨locate_of_directories h.here.symm fun place => (h.directory place).1,
    locate_of_directories h.here fun place => (h.directory place).2⟩

theorem trans (h : AgreesOff paths tree later) (h' : AgreesOff more later last) :
    AgreesOff (paths ++ more) tree last := by
  refine ⟨h'.here.trans h.here, fun place => (h'.directory place).trans (h.directory place), ?_⟩
  intro place hoff
  rw [List.forall_mem_append] at hoff
  rw [h'.other place fun path hm hl => hoff.2 path hm ((h.locate_eq_ok_iff ..).1 hl)]
  exact h.other place hoff.1

theorem mono (h : AgreesOff paths tree later) (hsub : paths ⊆ more) : AgreesOff more tree later :=
  ⟨h.here, h.directory, fun place hoff => h.other place fun path hm => hoff path (hsub hm)⟩

/-- What is read at a path to whose place no other path leads is read again. -/
theorem read (h : AgreesOff paths tree later) {path : String} {data : List UInt8}
    (hr : tree.read path = .ok data)
    (hoff : ∀ place, tree.locate path = .ok place →
      ∀ other ∈ paths, tree.locate other.text ≠ .ok place) :
    later.read path = .ok data := by
  obtain ⟨place, hl, hget⟩ := (read_eq_ok_iff ..).1 hr
  refine (read_eq_ok_iff ..).2 ⟨place, (h.locate_eq_ok_iff ..).2 hl, ?_⟩
  rw [h.other place (hoff place hl), hget]

end AgreesOff

/-- **Writing at a path keeps everything off it.** -/
theorem agreesOff_of_put {path : Path} (hn : path.IsNormal) {data : List UInt8}
    (h : tree.put path.text data = .ok later) : AgreesOff [path] tree later := by
  rw [put, hn.ofString_text] at h
  obtain ⟨place, hl, hd, rfl⟩ := (write_eq_ok_iff ..).1 h
  refine ⟨rfl, fun other => ?_, fun other hoff => ?_⟩
  · rw [get?_set_file hd]
    split
    · next he => simp [he, hd]
    · exact Iff.rfl
  · have hne : other ≠ place := fun he => hoff path List.mem_cons_self (he ▸ hl)
    rw [get?_set_file hd, if_neg hne]

/-- What has been written is there. -/
theorem get?_of_put {path : Path} (hn : path.IsNormal) {data : List UInt8}
    (h : tree.put path.text data = .ok later) (hl : tree.locate path.text = .ok place) :
    later.get? place = some (.file data) := by
  rw [put, hn.ofString_text] at h
  obtain ⟨other, hl', hd, rfl⟩ := (write_eq_ok_iff ..).1 h
  rw [hl] at hl'
  cases hl'
  rw [get?_set_file hd, if_pos rfl]

/-- So it is read at the path that it was written to. -/
theorem read_of_put {path : String} {data : List UInt8} (h : tree.put path data = .ok later) :
    later.read (Path.ofString path).text = .ok data := by
  have hn := Path.isNormal_ofString path
  have hput : tree.put (Path.ofString path).text data = .ok later := by
    rwa [put, hn.ofString_text]
  obtain ⟨place, hl, -, -⟩ := (write_eq_ok_iff ..).1 h
  exact (read_eq_ok_iff ..).2
    ⟨place, ((agreesOff_of_put hn hput).locate_eq_ok_iff ..).2 hl, get?_of_put hn hput hl⟩

end StackAssembler.Tree
