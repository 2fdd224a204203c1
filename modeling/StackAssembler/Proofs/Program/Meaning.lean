import StackAssembler.Proofs.Encoding.Utf8
import StackAssembler.Proofs.Program.Run
import StackAssembler.Proofs.Source.Words

/-!
# What a program means

The language, said without an assembler: what each word of a program stands for depends on the word,
on the labels that are predefined, and on the words before it.  `Means` says so word by word and
`Translates` for a whole program, and `definitions` lists the labels that a program defines.  The
assembler gives the translation of every program that has one, and fails on every other.

The invariant of the pass is `Scope.Follows`: the labels of the scope are the predefined ones and
then those that the words so far define, and the index counts the words so far.
-/

namespace StackAssembler

/-! ## The language -/

/-- The label that a word defines, if it defines one. -/
def definedName? (word : List Char) : Option LabelName :=
  if word.getLast? = some ':' ∧ IsName word.dropLast then some word.dropLast else none

/-- The labels that the words of a program define, each with the number of the word. -/
def definitions (words : List (List Char)) : List (LabelName × Int) :=
  words.zipIdx.filterMap fun (word, i) => (definedName? word).map fun name => (name, (i : Int) + 1)

/-- What a word of a program stands for, when some labels are predefined and some words come before
it. -/
inductive Means (predefined : LabelTable) (before : List (List Char)) : List Char → Int → Prop
  /-- A literal stands for its value. -/
  | literal {word : List Char} : IsLiteral word → Means predefined before word (literalValue word)
  /-- An instruction stands for its opcode. -/
  | instruction {word : List Char} {op : Opcode} : Spells word op →
      Means predefined before word op.number
  /-- A name with a colon, which must be new, stands for a `nop`. -/
  | definition {name : LabelName} : IsName name → name ∉ predefined.names →
      name ++ [':'] ∉ before → Means predefined before (name ++ [':']) 0
  /-- An ampersand with a predefined name stands for its address. -/
  | predefined {name : LabelName} {address : Int} : IsName name →
      predefined.get? name = some address → Means predefined before ('&' :: name) (address % 2 ^ 32)
  /-- An ampersand with a name that a word before defines stands for the number of that word. -/
  | defined {name : LabelName} {j : Nat} : IsName name → before[j]? = some (name ++ [':']) →
      Means predefined before ('&' :: name) (j + 1)

/-- The values are what the words stand for that come after others, each after those before it. -/
def TranslatesFrom (predefined : LabelTable) (before words : List (List Char))
    (values : List Int) : Prop :=
  values.length = words.length ∧ ∀ i word value, words[i]? = some word → values[i]? = some value →
    Means predefined (before ++ words.take i) word value

/-- The values are what the words of a program stand for. -/
def Translates (predefined : LabelTable) (words : List (List Char)) (values : List Int) : Prop :=
  TranslatesFrom predefined [] words values

/-! ## Defined labels -/

theorem definedName?_eq_some_iff (word : List Char) (name : LabelName) :
    definedName? word = some name ↔ IsName name ∧ word = name ++ [':'] := by
  rw [definedName?]
  constructor
  · intro h
    split at h
    · next hc =>
        obtain ⟨init, rfl⟩ := List.getLast?_eq_some_iff.1 hc.1
        rw [List.dropLast_concat] at h hc
        cases h
        exact ⟨hc.2, rfl⟩
    · cases h
  · rintro ⟨hn, rfl⟩
    rw [List.dropLast_concat, if_pos ⟨List.getLast?_concat, hn⟩]

/-- The words that define a label are those of the kind. -/
theorem isSome_definedName? (word : List Char) :
    (definedName? word).isSome = Kind.labelDefinition.fits word := by
  rw [Bool.eq_iff_iff, Option.isSome_iff_exists]
  simp only [definedName?_eq_some_iff]
  exact (Kind.isLabelDefinition_iff word).symm

/-- A word of another shape defines nothing. -/
theorem definedName?_eq_none {word : List Char} {kind : Kind} (h : kind.fits word = true)
    (hk : kind ≠ .labelDefinition) : definedName? word = none := by
  rw [← Option.not_isSome_iff_eq_none, isSome_definedName?]
  exact fun hfits => hk (Kind.eq_of_fits h hfits)

theorem definitions_concat (words : List (List Char)) (word : List Char) :
    definitions (words ++ [word]) = definitions words ++
      ((definedName? word).map fun name => (name, (words.length : Int) + 1)).toList := by
  rw [definitions, List.zipIdx_append, List.filterMap_append, ← definitions]
  cases h : definedName? word <;> simp [h]

theorem mem_definitions_iff (words : List (List Char)) (name : LabelName) (address : Int) :
    (name, address) ∈ definitions words ↔
      IsName name ∧ ∃ j : Nat, words[j]? = some (name ++ [':']) ∧ address = j + 1 := by
  simp only [definitions, List.mem_filterMap, Option.map_eq_some_iff, Prod.exists,
    List.mem_zipIdx_iff_getElem?, Prod.mk.injEq, definedName?_eq_some_iff]
  constructor
  · rintro ⟨word, j, hj, other, ⟨hn, rfl⟩, rfl, rfl⟩
    exact ⟨hn, j, hj, rfl⟩
  · rintro ⟨hn, j, hj, rfl⟩
    exact ⟨_, j, hj, name, ⟨hn, rfl⟩, rfl, rfl⟩

/-! ## Translations -/

variable {predefined : LabelTable} {before words : List (List Char)} {values : List Int}

theorem translatesFrom_nil_iff : TranslatesFrom predefined before [] values ↔ values = [] := by
  simp [TranslatesFrom]

/-- A translation is a translation of the first word and one of the words after it. -/
theorem translatesFrom_cons_iff {word : List Char} :
    TranslatesFrom predefined before (word :: words) values ↔ ∃ value more,
      values = value :: more ∧ Means predefined before word value ∧
        TranslatesFrom predefined (before ++ [word]) words more := by
  constructor
  · rintro ⟨hlen, h⟩
    cases values with
    | nil => cases hlen
    | cons value more =>
        refine ⟨value, more, rfl, ?_, Nat.succ.inj hlen, fun i other v hi hv => ?_⟩
        · simpa using h 0 word value rfl rfl
        · simpa using h (i + 1) other v hi hv
  · rintro ⟨value, more, rfl, hm, hlen, h⟩
    refine ⟨congrArg Nat.succ hlen, fun i other v hi hv => ?_⟩
    cases i with
    | zero =>
        cases hi
        cases hv
        simpa using hm
    | succ i => simpa using h i other v hi hv

/-- **A program has a translation exactly if each of its words means something where it stands.** -/
theorem exists_translatesFrom_iff :
    (∃ values, TranslatesFrom predefined before words values) ↔
      ∀ i word, words[i]? = some word →
        ∃ value, Means predefined (before ++ words.take i) word value := by
  induction words generalizing before with
  | nil => simp [translatesFrom_nil_iff]
  | cons word words ih =>
      constructor
      · rintro ⟨values, h⟩
        obtain ⟨value, more, rfl, hm, h⟩ := translatesFrom_cons_iff.1 h
        intro i other hi
        cases i with
        | zero =>
            cases hi
            exact ⟨value, by simpa using hm⟩
        | succ i => simpa using ih.1 ⟨more, h⟩ i other hi
      · intro h
        obtain ⟨value, hm⟩ := h 0 word rfl
        obtain ⟨more, ht⟩ : ∃ more, TranslatesFrom predefined (before ++ [word]) words more :=
          ih.2 fun i other hi => by simpa using h (i + 1) other hi
        exact ⟨value :: more, translatesFrom_cons_iff.2 ⟨value, more, rfl, by simpa using hm, ht⟩⟩

/-- Of the predefined labels only the addresses count, and not the order. -/
theorem Means.of_get? {other : LabelTable} {word : List Char} {value : Int}
    (hget : ∀ name, other.get? name = predefined.get? name)
    (h : Means predefined before word value) : Means other before word value := by
  cases h with
  | literal hl => exact .literal hl
  | instruction hs => exact .instruction hs
  | definition hn hp hb =>
      refine .definition hn ?_ hb
      rwa [LabelTable.mem_names_iff, hget, ← LabelTable.mem_names_iff]
  | predefined hn ha => exact .predefined hn (by rwa [hget])
  | defined hn hj => exact .defined hn hj

theorem Translates.of_get? {other : LabelTable}
    (hget : ∀ name, other.get? name = predefined.get? name)
    (h : Translates predefined words values) : Translates other words values :=
  ⟨h.1, fun i word value hi hv => (h.2 i word value hi hv).of_get? hget⟩

/-! ## The invariant of the pass -/

namespace Scope

/-- What holds of the scope after some words of a program: its labels are the predefined ones and
then those that the words define, and the index counts the words. -/
structure Follows (predefined : LabelTable) (before : List (List Char)) (scope : Scope) :
    Prop where
  entries : scope.labels.entries = predefined.wrapped.entries ++ definitions before
  index : scope.index = before.length + 1

/-- Before the first word nothing is defined but the predefined labels. -/
theorem follows_start (predefined : LabelTable) :
    Follows predefined [] (start predefined.wrapped) :=
  ⟨(List.append_nil _).symm, rfl⟩

namespace Follows

variable {scope later : Scope} {name : LabelName} {word : List Char} {location : Location}
variable {value : Int}

/-- A name has the address of a predefined label or the number of the word that defines it. -/
theorem get?_eq_some_iff (h : Follows predefined before scope) (hn : IsName name) (address : Int) :
    scope.labels.get? name = some address ↔
      (∃ a, predefined.get? name = some a ∧ address = a % 2 ^ 32) ∨
        ∃ j : Nat, before[j]? = some (name ++ [':']) ∧ address = j + 1 := by
  rw [LabelTable.get?_eq_some_iff, h.entries, List.mem_append, mem_definitions_iff,
    ← LabelTable.get?_eq_some_iff, LabelTable.get?_wrapped, Option.map_eq_some_iff]
  simp only [hn, true_and, eq_comm]

/-- A name is taken if it is predefined or a word defines it. -/
theorem mem_names_iff (h : Follows predefined before scope) (hn : IsName name) :
    name ∈ scope.labels.names ↔ name ∈ predefined.names ∨ name ++ [':'] ∈ before := by
  rw [LabelTable.mem_names_iff, LabelTable.mem_names_iff, List.mem_iff_getElem?]
  simp only [h.get?_eq_some_iff hn]
  constructor
  · rintro ⟨_, ⟨a, ha, -⟩ | ⟨j, hj, -⟩⟩
    · exact .inl ⟨a, ha⟩
    · exact .inr ⟨j, hj⟩
  · rintro (⟨a, ha⟩ | ⟨j, hj⟩)
    · exact ⟨_, .inl ⟨a, ha, rfl⟩⟩
    · exact ⟨_, .inr ⟨j, hj, rfl⟩⟩

/-- **The scope takes a word for what it means**, and nothing else. -/
theorem exists_takes_iff (h : Follows predefined before scope) :
    (∃ later, scope.Takes location word value later) ↔ Means predefined before word value := by
  constructor
  · rintro ⟨later, ht⟩
    cases ht with
    | literal hl => exact .literal hl
    | instruction hs => exact .instruction hs
    | definition hn hnew =>
        rw [h.mem_names_iff hn, not_or] at hnew
        exact .definition hn hnew.1 hnew.2
    | reference hn hget =>
        obtain ⟨a, ha, rfl⟩ | ⟨j, hj, rfl⟩ := (h.get?_eq_some_iff hn _).1 hget
        · exact .predefined hn ha
        · exact .defined hn hj
  · intro hm
    cases hm with
    | literal hl => exact ⟨_, .literal hl⟩
    | instruction hs => exact ⟨_, .instruction hs⟩
    | definition hn hp hb =>
        exact ⟨_, .definition hn fun hm => ((h.mem_names_iff hn).1 hm).elim hp hb⟩
    | predefined hn ha =>
        exact ⟨_, .reference hn ((h.get?_eq_some_iff hn _).2 (.inl ⟨_, ha, rfl⟩))⟩
    | defined hn hj =>
        exact ⟨_, .reference hn ((h.get?_eq_some_iff hn _).2 (.inr ⟨_, hj, rfl⟩))⟩

/-- A word that is taken defines the labels that it adds, and where it stands is their origin. -/
theorem added_of_takes (ht : scope.Takes location word value later) :
    later.index = scope.index ∧
      later.labels.entries = scope.labels.entries ++
        ((definedName? word).map fun name => (name, (scope.index : Int))).toList ∧
      later.origins =
        ((definedName? word).map fun name => (name, location)).toList ++ scope.origins := by
  cases ht with
  | literal hl =>
      have hf : Kind.integer.fits word = true := (Kind.isInteger_iff word).2 hl.isDigit
      simp [definedName?_eq_none hf (by decide)]
  | instruction hs =>
      have hf : Kind.instruction.fits word = true := (Kind.isInstruction_iff word).2 ⟨_, hs⟩
      simp [definedName?_eq_none hf (by decide)]
  | @definition name hn hnew =>
      have hd := (definedName?_eq_some_iff (name ++ [':']) name).2 ⟨hn, rfl⟩
      rw [hd]
      exact ⟨rfl, LabelTable.entries_insert_of_notMem _ hnew, rfl⟩
  | @reference name _ hn hget =>
      have hf : Kind.labelReference.fits ('&' :: name) = true :=
        (Kind.isLabelReference_iff _).2 ⟨name, hn, rfl⟩
      simp [definedName?_eq_none hf (by decide)]

/-- **A word that is taken keeps the invariant.** -/
theorem advance (h : Follows predefined before scope)
    (ht : scope.Takes location word value later) :
    Follows predefined (before ++ [word]) later.advance := by
  obtain ⟨hi, he, -⟩ := added_of_takes ht
  constructor
  · have hcount : (before.length : Int) + 1 = scope.index := by
      rw [h.index]
      rfl
    rw [definitions_concat, ← List.append_assoc, ← h.entries, hcount]
    exact he
  · rw [Scope.advance, hi, h.index, List.length_append]
    rfl

/-- A run takes the words for their translation. -/
theorem exists_run_iff (h : Follows predefined before scope) (tokens : List Token) :
    (∃ later, scope.run tokens = .ok (values, later)) ↔
      TranslatesFrom predefined before (tokens.map Token.text) values := by
  induction tokens generalizing scope before values with
  | nil => simp [translatesFrom_nil_iff, eq_comm]
  | cons token rest ih =>
      rw [List.map_cons, translatesFrom_cons_iff]
      constructor
      · rintro ⟨later, hr⟩
        obtain ⟨value, next, more, hs, hrest, rfl⟩ := (run_cons_eq_ok_iff ..).1 hr
        have ht := (step_eq_ok_iff ..).1 hs
        exact ⟨value, more, rfl, h.exists_takes_iff.1 ⟨next, ht⟩,
          (ih (h.advance ht)).1 ⟨later, hrest⟩⟩
      · rintro ⟨value, more, rfl, hm, hmore⟩
        obtain ⟨next, ht⟩ := h.exists_takes_iff.2 hm
        obtain ⟨later, hr⟩ := (ih (h.advance ht)).2 hmore
        exact ⟨later, (run_cons_eq_ok_iff ..).2
          ⟨value, next, more, (step_eq_ok_iff ..).2 ht, hr, rfl⟩⟩

/-- **A run keeps the invariant.** -/
theorem run (h : Follows predefined before scope) {tokens : List Token}
    (hr : scope.run tokens = .ok (values, later)) :
    Follows predefined (before ++ tokens.map Token.text) later := by
  let holds (tokens : List Token) (scope : Scope) : Prop :=
    Follows predefined (before ++ tokens.map Token.text) scope
  have hstart : holds [] scope := by simpa [holds] using h
  refine run_induction (fun tokens scope later token word h ht => ?_) hstart hr
  simpa [holds] using h.advance ht

end Follows

end Scope

/-! ## Programs -/

namespace Assembler

variable {assembler : Assembler} {text : List Char} {file : String}

/-- The words of bytes come to their translation, if the bytes can be read. -/
theorem result_eq_ok_iff_translates (hp : assembler.predefined = predefined.wrapped)
    (bytes : List UInt8) (file : String) :
    (assembler.assembleBytes bytes file).result = .ok values ↔
      Translates predefined
        ((Source.tokens file assembler.encoding bytes).items.map Token.text) values ∧
      (Source.tokens file assembler.encoding bytes).failure? = none := by
  rw [Translates, ← (Scope.follows_start predefined).exists_run_iff, result_eq_ok_iff, outcome, hp]
  simp only [Scope.outcome_eq_ok_iff, exists_and_right]

/-- The outcome of a text is the run of its words. -/
theorem outcome_encode (hp : assembler.predefined = predefined.wrapped)
    (he : assembler.encoding = "utf-8") (text : List Char) (file : String) :
    assembler.outcome (Encoding.Utf8.encode text) file =
      (Scope.start predefined.wrapped).run (tokensOf file text) := by
  obtain ⟨hi, hf⟩ := Source.tokens_encode Encoding.Utf8.ofName?_eq file text
  rw [outcome, he, hp, Scope.outcome_of_none hf, hi]

/-- The words of a text come to their translation. -/
theorem result_encode_eq_ok_iff (hp : assembler.predefined = predefined.wrapped)
    (he : assembler.encoding = "utf-8") :
    (assembler.assembleBytes (Encoding.Utf8.encode text) file).result = .ok values ↔
      Translates predefined (wordsOf text) values := by
  obtain ⟨hitems, hread⟩ := Source.tokens_encode Encoding.Utf8.ofName?_eq file text
  rw [result_eq_ok_iff_translates hp, he, hitems, hread, texts_tokensOf]
  exact and_iff_left rfl

/-- **Assembling translates every program that has a translation, and fails on every other.**  A
program in UTF-8 has one if each of its words means something where it stands.  Then the labels are
the predefined ones and after them those of the program, and the index is one more than the number
of words; else there are no labels and the index is that of a first word.  The predefined labels
stay as they are. -/
theorem assemble_translates (predefined : LabelTable) (file : String) (scope : Scope)
    (text : List Char) (name : Option String) :
    let assembler := { new predefined defaultEncoding file with scope }
    let assembly := assembler.assemble (.bytes (Encoding.Utf8.encode text)) name
    let words := wordsOf text
    ((∃ values, assembly.result = .ok values) ↔ ∀ i word, words[i]? = some word →
      ∃ value, Means predefined (words.take i) word value) ∧
    (∀ values, assembly.result = .ok values ↔ Translates predefined words values) ∧
    (∀ values, assembly.result = .ok values →
      assembly.assembler.labels.entries = predefined.wrapped.entries ++ definitions words ∧
      assembly.assembler.index = words.length + 1) ∧
    (∀ failure, assembly.result = .error failure →
      assembly.assembler.labels = .empty ∧ assembly.assembler.index = 1) ∧
    assembly.assembler.predefined = predefined.wrapped := by
  intro assembler assembly words
  have hp : assembler.predefined = predefined.wrapped := by simp only [assembler, new_eq]
  have he : assembler.encoding = "utf-8" := by simp only [assembler, new_eq, defaultEncoding]
  have htranslates : ∀ values, assembly.result = .ok values ↔ Translates predefined words values :=
    fun values => result_encode_eq_ok_iff hp he
  refine ⟨?_, htranslates, ?_⟩
  · simp only [htranslates]
    exact exists_translatesFrom_iff
  cases ho : assembler.outcome (Encoding.Utf8.encode text) (name.getD assembler.file) with
  | error failure =>
      obtain ⟨hr, ha⟩ : assembly.result = .error failure ∧
        assembly.assembler = { assembler with scope := .empty } := assembleBytes_of_error ho
      rw [hr, ha]
      exact ⟨nofun, fun _ _ => ⟨rfl, rfl⟩, hp⟩
  | ok result =>
      obtain ⟨hr, ha⟩ : assembly.result = .ok result.1 ∧
        assembly.assembler = { assembler with scope := result.2 } := assembleBytes_of_ok ho
      rw [outcome_encode hp he] at ho
      have hfollows := (Scope.follows_start predefined).run ho
      rw [List.nil_append, texts_tokensOf] at hfollows
      rw [hr, ha]
      exact ⟨fun _ _ => ⟨hfollows.entries, hfollows.index⟩, nofun, hp⟩

end Assembler

end StackAssembler
