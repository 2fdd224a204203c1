import StackAssembler.Files.Path
import Mathlib.Tactic.Common

/-!
# Normal paths

Every path that is read from a text is in normal form: it starts with at most two slashes, and no
component is empty or a single dot.  The text of a path in normal form, cut again at its slashes, is
an empty component for each slash at the start and then the components; so it is read as the same
path.  The default output of a path in normal form is in normal form, too.
-/

namespace StackAssembler.Path

/-! ## Cutting at slashes -/

theorem cut_slash (rest : List Char) : cut ('/' :: rest) = [] :: cut rest := if_pos rfl

theorem cut_ne_nil (text : List Char) : cut text ≠ [] := by
  cases text with
  | nil => exact List.cons_ne_nil _ _
  | cons c rest =>
      rw [cut]
      split
      · exact List.cons_ne_nil _ _
      · split <;> exact List.cons_ne_nil _ _

/-- Another character belongs to the first component. -/
theorem cut_cons_of_ne {c : Char} (hc : c ≠ '/') (rest : List Char) :
    cut (c :: rest) = (cut rest).modifyHead (c :: ·) := by
  rw [cut, if_neg hc]
  cases h : cut rest with
  | nil => exact absurd h (cut_ne_nil rest)
  | cons part parts => rfl

theorem cut_eq_splitOn (text : List Char) : cut text = text.splitOn '/' := by
  rw [List.splitOn_eq_splitOnP]
  induction text with
  | nil => rfl
  | cons c rest ih =>
      rw [List.splitOnP_cons_eq_if_modifyHead, ← ih]
      by_cases hc : c = '/'
      · rw [hc, cut_slash, if_pos (beq_self_eq_true '/')]
      · rw [cut_cons_of_ne hc, if_neg (by simpa using hc)]

theorem slash_notMem_of_mem_cut {text part : List Char} (h : part ∈ cut text) : '/' ∉ part := by
  induction text generalizing part with
  | nil => simp_all [cut]
  | cons c rest ih =>
      by_cases hc : c = '/'
      · rw [hc, cut_slash, List.mem_cons] at h
        rcases h with rfl | hm
        · simp
        · exact ih hm
      · obtain ⟨first, parts, hr⟩ := List.exists_cons_of_ne_nil (cut_ne_nil rest)
        rw [cut_cons_of_ne hc, hr, List.modifyHead_cons, List.mem_cons] at h
        rw [hr] at ih
        rcases h with rfl | hm
        · simpa [Ne.symm hc] using ih List.mem_cons_self
        · exact ih (List.mem_cons_of_mem _ hm)

/-! ## The normal form -/

/-- A path in normal form. -/
structure IsNormal (path : Path) : Prop where
  root : path.root = "" ∨ path.root = "/" ∨ path.root = "//"
  parts : ∀ part ∈ path.parts, part ≠ [] ∧ part ≠ ['.'] ∧ '/' ∉ part

/-- A path that is read from a text is in normal form. -/
theorem isNormal_ofString (text : String) : (ofString text).IsNormal := by
  constructor
  · simp only [ofString]
    split
    · exact .inl rfl
    · split
      · exact .inr (.inr rfl)
      · exact .inr (.inl rfl)
  · intro part hm
    obtain ⟨hcut, hpart⟩ := List.mem_filter.1 hm
    obtain ⟨hne, hdot⟩ := of_decide_eq_true hpart
    exact ⟨hne, hdot, slash_notMem_of_mem_cut hcut⟩

variable {path : Path}

/-- The characters of a path with components. -/
theorem toList_text (h : path.parts ≠ []) :
    path.text.toList = path.root.toList ++ ['/'].intercalate path.parts := by
  rw [text, if_neg fun hc => h hc.2, String.toList_append, String.toList_intercalate]
  simp

namespace IsNormal

/-- The slashes that a path starts with. -/
theorem root_eq_replicate (h : path.IsNormal) :
    path.root.toList = List.replicate path.root.length '/' := by
  rcases h.root with hr | hr | hr <;> rw [hr] <;> rfl

/-- **Cutting the text of a path gives an empty component for each slash at its start, and then its
components.** -/
theorem cut_text (h : path.IsNormal) (hne : path.parts ≠ []) :
    cut path.text.toList = List.replicate path.root.length [] ++ path.parts := by
  have hslashes : ∀ (count : Nat) (rest : List Char),
      cut (List.replicate count '/' ++ rest) = List.replicate count [] ++ cut rest := by
    intro count rest
    induction count with
    | zero => rfl
    | succ count ih => rw [List.replicate_succ, List.cons_append, cut_slash, ih]; rfl
  rw [toList_text hne, h.root_eq_replicate, hslashes, cut_eq_splitOn,
    List.splitOn_intercalate '/' (fun part hm => (h.parts part hm).2.2) hne]

/-- The components behind the root do not start with a slash. -/
theorem head?_intercalate_ne (h : path.IsNormal) :
    (['/'].intercalate path.parts).head? ≠ some '/' := by
  cases hp : path.parts with
  | nil => simp
  | cons part parts =>
      obtain ⟨hne, -, hslash⟩ := h.parts part (hp ▸ List.mem_cons_self)
      obtain ⟨c, chars, rfl⟩ := List.exists_cons_of_ne_nil hne
      have hc : c ≠ '/' := fun e => hslash (e ▸ List.mem_cons_self)
      cases parts with
      | nil => simpa using hc
      | cons next parts => simpa [List.intercalate_cons_cons] using hc

/-- The slashes at the start of a path are those of its root. -/
theorem takeWhile_text (h : path.IsNormal) (hne : path.parts ≠ []) :
    path.text.toList.takeWhile (· == '/') = path.root.toList := by
  have hrest : (['/'].intercalate path.parts).takeWhile (· == '/') = [] := by
    have hhead := h.head?_intercalate_ne
    cases hj : ['/'].intercalate path.parts with
    | nil => rfl
    | cons c chars =>
        rw [hj, List.head?_cons] at hhead
        rw [List.takeWhile_cons_of_neg]
        simpa using hhead
  rw [toList_text hne, h.root_eq_replicate, List.takeWhile_append_of_pos (by simp), hrest,
    List.append_nil]

/-- **The text of a path in normal form is read as that path.** -/
theorem ofString_text (h : path.IsNormal) : ofString path.text = path := by
  obtain ⟨root, parts⟩ := path
  by_cases hp : parts = []
  · subst hp
    rcases h.root with hr | hr | hr <;> simp only at hr <;> subst hr <;> decide
  · have hempty : (List.replicate root.length ([] : List Char)).filter
        (fun part => decide (part ≠ [] ∧ part ≠ ['.'])) = [] :=
      List.filter_eq_nil_iff.2 fun part hm => by simp [List.eq_of_mem_replicate hm]
    have hkeep : parts.filter (fun part => decide (part ≠ [] ∧ part ≠ ['.'])) = parts :=
      List.filter_eq_self.2 fun part hm =>
        decide_eq_true ⟨(h.parts part hm).1, (h.parts part hm).2.1⟩
    rw [ofString, h.takeWhile_text hp, h.cut_text hp, List.filter_append, hempty, hkeep,
      List.nil_append]
    have hroot : (if root.toList.length = 0 then "" else if root.toList.length = 2 then "//"
        else "/") = root := by
      rcases h.root with hr | hr | hr <;> simp only at hr <;> subst hr <;> decide
    exact congrArg (Path.mk · parts) hroot

/-- Whether a path with components starts with a slash. -/
theorem head?_text (h : path.IsNormal) (hne : path.parts ≠ []) :
    path.text.toList.head? = some '/' ↔ path.root ≠ "" := by
  rw [toList_text hne]
  rcases h.root with hr | hr | hr <;> rw [hr]
  · simpa using h.head?_intercalate_ne
  · simp
  · simp

end IsNormal

/-! ## Other suffixes -/

theorem stem_subset (name : List Char) : stem name ⊆ name := by
  rw [stem]
  split
  · exact List.Subset.refl name
  · exact List.take_subset ..

/-- The default output stands beside the input, under a name of more than two characters. -/
theorem exists_of_defaultOutput {input output : Path} {format : String}
    (h : input.defaultOutput format = .ok output) : ∃ init name other,
      input.parts = init ++ [name] ∧ output = ⟨input.root, init ++ [other]⟩ ∧ 2 < other.length ∧
      ('/' ∉ name → '/' ∉ other) := by
  have hsuffix : ∃ suffix : String, 2 < suffix.toList.length ∧ '/' ∉ suffix.toList ∧
      input.withSuffix suffix = .ok output := by
    rw [defaultOutput] at h
    split at h
    · exact ⟨".bin", by decide, by decide, h⟩
    · exact ⟨".txt", by decide, by decide, h⟩
  obtain ⟨suffix, hlength, hslash, h⟩ := hsuffix
  rw [withSuffix] at h
  split at h
  · cases h
  · next name hname =>
      obtain ⟨init, hparts⟩ := List.getLast?_eq_some_iff.1 hname
      cases h
      refine ⟨init, name, stem name ++ suffix.toList, hparts, ?_, ?_, fun hnot hm => ?_⟩
      · rw [hparts, List.dropLast_concat]
      · rw [List.length_append]
        omega
      · rcases List.mem_append.1 hm with hm | hm
        · exact hnot (stem_subset name hm)
        · exact hslash hm

/-- **The default output of a path in normal form is in normal form.** -/
theorem IsNormal.defaultOutput {input output : Path} (hn : input.IsNormal) {format : String}
    (h : input.defaultOutput format = .ok output) : output.IsNormal := by
  obtain ⟨init, name, other, hparts, rfl, hlength, hslash⟩ := exists_of_defaultOutput h
  refine ⟨hn.root, fun part hm => ?_⟩
  rcases List.mem_append.1 hm with hm | hm
  · exact hn.parts part (hparts ▸ List.mem_append_left _ hm)
  · rw [List.mem_singleton] at hm
    subst hm
    refine ⟨?_, ?_, hslash (hn.parts name (hparts ▸ List.mem_append_right _ (by simp))).2.2⟩
    · rintro rfl
      simp at hlength
    · rintro rfl
      simp at hlength

/-! ## Usable paths -/

/-- No component has a NUL character in it, so the path can be looked up. -/
def IsUsable (path : Path) : Prop := ∀ part ∈ path.parts, '\x00' ∉ part

theorem mem_of_mem_cut {text part : List Char} {c : Char} (h : part ∈ cut text) (hc : c ∈ part) :
    c ∈ text := by
  induction text generalizing part with
  | nil => simp_all [cut]
  | cons d rest ih =>
      by_cases hd : d = '/'
      · rw [hd, cut_slash, List.mem_cons] at h
        rcases h with rfl | hm
        · cases hc
        · exact List.mem_cons_of_mem d (ih hm hc)
      · obtain ⟨first, parts, hr⟩ := List.exists_cons_of_ne_nil (cut_ne_nil rest)
        rw [cut_cons_of_ne hd, hr, List.modifyHead_cons, List.mem_cons] at h
        rw [hr] at ih
        rcases h with rfl | hm
        · rcases List.mem_cons.1 hc with rfl | hc
          · exact List.mem_cons_self
          · exact List.mem_cons_of_mem d (ih List.mem_cons_self hc)
        · exact List.mem_cons_of_mem d (ih (List.mem_cons_of_mem first hm) hc)

theorem isUsable_ofString {text : String} (h : '\x00' ∉ text.toList) :
    (ofString text).IsUsable := by
  intro part hm hnul
  obtain ⟨hcut, -⟩ := List.mem_filter.1 hm
  exact h (mem_of_mem_cut hcut hnul)

theorem IsUsable.defaultOutput {input output : Path} (hu : input.IsUsable) {format : String}
    (h : input.defaultOutput format = .ok output) : output.IsUsable := by
  have hsuffix : ∃ suffix : String, '\x00' ∉ suffix.toList ∧
      input.withSuffix suffix = .ok output := by
    rw [Path.defaultOutput] at h
    split at h
    · exact ⟨".bin", by decide, h⟩
    · exact ⟨".txt", by decide, h⟩
  obtain ⟨suffix, hnul, h⟩ := hsuffix
  rw [withSuffix] at h
  split at h
  · cases h
  · next name hname =>
      cases h
      intro part hm
      rcases List.mem_append.1 hm with hm | hm
      · exact hu part ((List.dropLast_subset _) hm)
      · rw [List.mem_singleton] at hm
        subst hm
        intro hc
        rcases List.mem_append.1 hc with hc | hc
        · exact hu name (List.mem_of_getLast? hname) (stem_subset name hc)
        · exact hnul hc

theorem notMem_intercalate {c : Char} (hc : c ≠ '/') {parts : List (List Char)}
    (h : ∀ part ∈ parts, c ∉ part) : c ∉ ['/'].intercalate parts := by
  induction parts with
  | nil => simp
  | cons part parts ih =>
      have hpart := h part List.mem_cons_self
      have hrest := ih fun other hm => h other (List.mem_cons_of_mem part hm)
      cases parts with
      | nil => simpa using hpart
      | cons next parts =>
          rw [List.intercalate_cons_cons, List.mem_append, List.mem_append, List.mem_singleton]
          simp only [hpart, hc, hrest, or_self, not_false_eq_true]

/-- The text of a usable path has no NUL character. -/
theorem IsUsable.notMem_text (hu : path.IsUsable) (hn : path.IsNormal) :
    '\x00' ∉ path.text.toList := by
  have hroot : '\x00' ∉ path.root.toList := by
    rcases hn.root with hr | hr | hr <;> rw [hr] <;> decide
  by_cases hp : path.parts = []
  · rw [text, hp]
    split
    · decide
    · rw [String.toList_append]
      simpa using hroot
  · rw [toList_text hp, List.mem_append, not_or]
    exact ⟨hroot, notMem_intercalate (by decide) hu⟩

end StackAssembler.Path
