import StackAssembler.Proofs.Program.History
import StackAssembler.Proofs.Program.Offences
import StackAssembler.Proofs.Text.EditDistance

/-!
# Suggestions for a label

A program that refers to a label that it has not defined is told which labels may have been meant:
the first three that are visible where it does so, and close to the name.  The predefined labels are
visible everywhere, in the order in which they were first given, and after them those that the
program has defined so far.

## Main definitions

* `IsClose`: a label may have been meant by a name.
-/

namespace StackAssembler

/-- A label may have been meant by a name: their lengths differ by one at most, and two edits or
fewer turn one into the other. -/
structure IsClose (name label : LabelName) : Prop where
  length_le : label.length ≤ name.length + 1
  le_length : name.length ≤ label.length + 1
  edits : ∃ n ≤ 2, Text.Edits n name label

theorem isSimilar_iff (name label : LabelName) :
    Scope.isSimilar name label = true ↔ IsClose name label := by
  simp only [Scope.isSimilar, Bool.and_eq_true, decide_eq_true_eq, Text.editDistance_le_iff]
  constructor
  · rintro ⟨⟨hlabel, hname⟩, hedits⟩
    exact ⟨hlabel, hname, hedits⟩
  · rintro ⟨hlabel, hname, hedits⟩
    exact ⟨⟨hlabel, hname⟩, hedits⟩

instance (name label : LabelName) : Decidable (IsClose name label) :=
  decidable_of_iff _ (isSimilar_iff name label)

namespace Scope

/-- The labels that are suggested are the first of those that are close. -/
theorem similar_eq (scope : Scope) (name : LabelName) :
    scope.similar name = (scope.labels.names.filter fun label => IsClose name label).take 3 := by
  have hclose : ∀ label ∈ scope.labels.names,
      isSimilar name label = decide (IsClose name label) := by
    intro label _
    rw [Bool.eq_iff_iff, isSimilar_iff, decide_eq_true_eq]
  rw [similar, suggestionLimit, List.filter_congr hclose]

theorem similar_sublist (scope : Scope) (name : LabelName) :
    (scope.similar name).Sublist scope.labels.names :=
  (List.take_sublist _ _).trans List.filter_sublist

/-- No label is suggested twice. -/
theorem nodup_similar (scope : Scope) (name : LabelName) : (scope.similar name).Nodup :=
  scope.labels.nodup.sublist (scope.similar_sublist name)

end Scope

/-- The hint names all labels of a list that is no longer than suggestions are. -/
theorem Cause.hint_undefinedLabel (name : LabelName) {similar : List LabelName}
    (h : similar.length ≤ 3) :
    (undefinedLabel name similar).hint =
      if similar = [] then none
      else some (String.join ["did you mean ", ", ".intercalate (similar.map fun label =>
        String.join ["'", String.ofList label, "'"]), "?"]) := by
  cases similar with
  | nil => rfl
  | cons first rest =>
      have hall : suggestions (first :: rest) = ", ".intercalate ((first :: rest).map fun label =>
          String.join ["'", String.ofList label, "'"]) := by
        rw [suggestions, List.take_of_length_le h]
      rw [if_neg (List.cons_ne_nil first rest), ← hall]
      rfl

namespace Assembler

/-- **What is suggested for a label that is not defined.**  The program is refused at a word that
refers to the label.  Visible there are the labels given beforehand, in the order in which they were
first given, and then those that the words before define.  The first three of them that are close to
the name are suggested, or all if there are fewer: each of them once, and not the name itself, nor a
label that only later words define.  There is a hint exactly if there are suggestions, and it names
them in that order.  This holds after whatever the assembler has been asked for before. -/
theorem suggestions_of_assemble (predefined : LabelTable) (encoding file : String)
    (operations : List Operation) (source : Source) (file? : Option String) (name : LabelName)
    (similar : List LabelName) (location : Option Location)
    (h : (((new predefined encoding file).performAll operations).assemble source file?).result =
      .error (.program ⟨.undefinedLabel name similar, location⟩)) :
    let assembler := (new predefined encoding file).performAll operations
    let given := predefined.names ++ (operations.filterMap Operation.definition?).map Prod.fst
    ∃ bytes i, source.toBytes assembler.encoding = .ok bytes ∧
      let text := (Source.characters assembler.encoding bytes).items
      let words := wordsOf text
      let visible := given.eraseDups ++ (definitions (words.take i)).map Prod.fst
      words[i]? = some ('&' :: name) ∧
      location = some (wordLocation (file?.getD assembler.file) text i) ∧
      similar = (visible.filter fun label => IsClose name label).take 3 ∧
      similar.Nodup ∧ name ∉ similar ∧
      (∀ label ∈ similar, label ∈ given ∨ ∃ j < i, words[j]? = some (label ++ [':'])) ∧
      (Cause.undefinedLabel name similar).hint =
        if similar = [] then none
        else some (String.join ["did you mean ", ", ".intercalate (similar.map fun label =>
          String.join ["'", String.ofList label, "'"]), "?"]) := by
  intro assembler given
  have hset := (isSet_new predefined encoding file).performAll operations
  rcases failsAt_of_assemble h with ⟨_, hinput⟩ | ⟨bytes, i, hbytes, hfails⟩
  · cases hinput
  refine ⟨bytes, i, hbytes, ?_⟩
  intro text words visible
  obtain ⟨more, hmore⟩ := Token.items_ofCharacters_prefix (file?.getD assembler.file)
    (Source.characters assembler.encoding bytes)
  have hwhole := hfails.append more
  rw [Source.tokens, hmore, hset.predefined] at hwhole
  obtain ⟨token, values, later, htoken, hrun, hstep⟩ := hwhole
  obtain ⟨hremembers, htexts⟩ := Scope.remembers_of_run hrun
  rw [getElem?_tokensOf, Option.map_eq_some_iff] at htoken
  obtain ⟨word, hword, rfl⟩ := htoken
  -- The labels of the scope that is reached are the visible ones.
  have hnames : later.labels.names = visible := by
    rw [hremembers.names, htexts, LabelTable.names_net, List.map_append]
    rfl
  cases (Scope.step_eq_error_iff ..).1 hstep with
  | undefined hn hm =>
      have hsub := later.similar_sublist name
      have hlength : (later.similar name).length ≤ 3 := by
        rw [later.similar_eq]
        exact List.length_take_le 3 _
      refine ⟨hword, rfl, ?_, later.nodup_similar name, fun hs => hm (hsub.subset hs), ?_,
        Cause.hint_undefinedLabel name hlength⟩
      · rw [later.similar_eq, hnames]
      · intro label hl
        have hvisible : label ∈ visible := hnames ▸ hsub.subset hl
        rcases List.mem_append.1 hvisible with hgiven | hdefined
        · exact .inl (List.mem_eraseDups.1 hgiven)
        · obtain ⟨⟨_, address⟩, hdefinition, rfl⟩ := List.mem_map.1 hdefined
          obtain ⟨-, j, hj, -⟩ := (mem_definitions_iff ..).1 hdefinition
          rw [List.getElem?_take] at hj
          split at hj
          · next hlt => exact .inr ⟨j, hlt, hj⟩
          · cases hj

/-- Four labels are close, of which the last is left out; one that is given again keeps its place,
and one that is defined after the reference is not suggested. -/
theorem suggestions_of_assemble_four :
    let assembler := (new .empty "utf-8" "<input>").performAll
      [.defineLabel ['l', 'o', 'o', 'p'] 1, .defineLabel ['l', 'o', 'p'] 2,
        .defineLabel ['l', 'o', 'o', 'p'] 3]
    let program := ['a', ':', ' ', 'l', 'o', 'o', ':', ' ', 'l', 'o', 'o', 't', ':', '\n',
      '&', 'l', 'o', 'o', 's', ' ', 'l', 'o', 's', ':']
    let similar : List LabelName := [['l', 'o', 'o', 'p'], ['l', 'o', 'p'], ['l', 'o', 'o']]
    (assembler.assemble (.text program) none).result = .error (.program
        ⟨.undefinedLabel ['l', 'o', 'o', 's'] similar, some ⟨"<input>", 2, 1⟩⟩) ∧
      similar.Nodup ∧ ['l', 'o', 'o', 's'] ∉ similar ∧
      (Cause.undefinedLabel ['l', 'o', 'o', 's'] similar).hint =
        some (String.join
          ["did you mean ", ", ".intercalate ["'loop'", "'lop'", "'loo'"], "?"]) := by
  intro assembler program similar
  have hresult : (assembler.assemble (.text program) none).result = .error (.program
      ⟨.undefinedLabel ['l', 'o', 'o', 's'] similar, some ⟨"<input>", 2, 1⟩⟩) := by
    decide +kernel
  obtain ⟨_, _, -, -, -, -, hnodup, hname, -, hhint⟩ :=
    suggestions_of_assemble .empty "utf-8" "<input>" _ (.text program) none _ similar _ hresult
  exact ⟨hresult, hnodup, hname, hhint⟩

end Assembler

end StackAssembler
