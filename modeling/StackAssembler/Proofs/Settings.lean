import StackAssembler.Proofs.Text.Case
import StackAssembler.Settings

/-!
# Settings of an environment

A variable of the environment counts if it names a value of its setting, and is as good as missing
otherwise.  So the settings of an environment always have a meaning, whatever its variables hold.
And since the name of a value names it again, variables that hold the values of settings give these
settings.

## Main definitions

* `Settings.IsValid`: every setting has a meaning.
* `Settings.exported`: the environment that holds the values of settings.
* `Settings.Chooses`: a text names one of some values.
-/

namespace StackAssembler

/-! ## Names of values -/

/-- A value is found by its name if the name is one of those of all values. -/
theorem isSome_find?_name_iff {α : Type} (all : List α) (name : α → String) (text : String) :
    (all.find? fun value => name value == text).isSome = true ↔ text ∈ all.map name := by
  simp only [List.find?_isSome, beq_iff_eq, List.mem_map]

theorem Format.isSome_ofName?_iff (text : String) :
    (ofName? text).isSome = true ↔ text ∈ all.map name :=
  isSome_find?_name_iff all name text

theorem ByteOrder.isSome_ofName?_iff (text : String) :
    (ofName? text).isSome = true ↔ text ∈ all.map name :=
  isSome_find?_name_iff all name text

theorem LogLevel.isSome_ofName?_iff (text : String) :
    (ofName? text).isSome = true ↔ text ∈ all.map name :=
  isSome_find?_name_iff all name text

namespace Settings

open Encoding

/-- A text chooses one of some values: it is its name, up to the case of ASCII letters. -/
structure Chooses (names : List String) (text name : String) : Prop where
  mem : name ∈ names
  spells : text.toList.map Char.toLower = name.toList

/-- The names are words of ASCII, and there is no `k` in them. -/
def IsAscii (names : List String) : Prop :=
  ∀ name ∈ names, ∀ d ∈ name.toList, d.toNat < 128 ∧ d ≠ 'k'

/-- For such names the lower case of all of Unicode and that of ASCII are one. -/
theorem chooses_iff_lower {names : List String} (h : IsAscii names) (text name : String) :
    Chooses names text name ↔ name ∈ names ∧ Text.lower text.toList = name.toList := by
  constructor
  · intro hc
    exact ⟨hc.mem, (Text.isLowering_lower.eq_iff (h name hc.mem) _).2 hc.spells⟩
  · rintro ⟨hm, hlower⟩
    exact ⟨hm, (Text.isLowering_lower.eq_iff (h name hm) _).1 hlower⟩

theorem isAscii_of_all {names : List String}
    (h : (names.all fun name => name.toList.all fun d => decide (d.toNat < 128 ∧ d ≠ 'k')) = true) :
    IsAscii names := by
  simp only [List.all_eq_true, decide_eq_true_eq] at h
  exact h

theorem isAscii_formats : IsAscii (Format.all.map Format.name) :=
  isAscii_of_all (by decide +kernel)

theorem isAscii_byteOrders : IsAscii (ByteOrder.all.map ByteOrder.name) :=
  isAscii_of_all (by decide +kernel)

/-! ## Valid settings -/

/-- Every setting has a meaning. -/
structure IsValid (settings : Settings) : Prop where
  encoding : isKnown settings.encoding = true
  format : settings.format ∈ Format.all.map Format.name
  byteOrder : settings.byteOrder ∈ ByteOrder.all.map ByteOrder.name
  logLevel : settings.logLevel ∈ LogLevel.all.map LogLevel.name

theorem isName_iff (name : String) : isName name = true ↔ '\x00' ∉ name.toList := by
  simp [isName]

theorem isName_of_isKnown {name : String} (h : isKnown name = true) : isName name = true := by
  rw [isKnown, Bool.and_eq_true] at h
  exact h.1

/-- **Settings pass their check exactly if they all have a meaning.** -/
theorem validate_eq_ok_iff (settings : Settings) :
    settings.validate = .ok () ↔ settings.IsValid := by
  have hformat := Format.isSome_ofName?_iff settings.format
  have horder := ByteOrder.isSome_ofName?_iff settings.byteOrder
  have hlevel := LogLevel.isSome_ofName?_iff settings.logLevel
  rw [validate]
  simp only [← Option.not_isSome, Bool.not_eq_true']
  constructor
  · intro h
    split_ifs at h with _ hk hf ho hl
    rw [Bool.not_eq_false] at hk hf ho hl
    exact ⟨hk, hformat.1 hf, horder.1 ho, hlevel.1 hl⟩
  · intro h
    simp [h.encoding, isName_of_isKnown h.encoding, hformat.2 h.format, horder.2 h.byteOrder,
      hlevel.2 h.logLevel]

/-- An encoding that is not known is found first.  It is a matter of the settings if it has a name
at all. -/
theorem validate_of_unknown {settings : Settings} (h : isKnown settings.encoding = false) :
    settings.validate = .error (if isName settings.encoding = true then
      .setting (.unknownEncoding settings.encoding) else .internal .nulInName) := by
  rw [validate]
  cases hn : isName settings.encoding <;> simp [h]

/-! ## Settings of an environment -/

theorem getD_filter {p : String → Bool} {default : String} (h : p default = true)
    (value : Option String) : p ((value.filter p).getD default) = true := by
  cases hv : value.filter p with
  | none => exact h
  | some name => exact (Option.filter_eq_some_iff.1 hv).2

/-- **The settings of an environment are valid**, whatever it holds. -/
theorem isValid_ofEnvironment (env : Environment) : (ofEnvironment env).IsValid where
  encoding := getD_filter (by decide +kernel) _
  format := (Format.isSome_ofName?_iff _).1
    (getD_filter (p := (Format.ofName? · |>.isSome)) (by decide) _)
  byteOrder := (ByteOrder.isSome_ofName?_iff _).1
    (getD_filter (p := (ByteOrder.ofName? · |>.isSome)) (by decide) _)
  logLevel := (LogLevel.isSome_ofName?_iff _).1
    (getD_filter (p := (LogLevel.ofName? · |>.isSome)) (by decide) _)

/-- The environment that holds the values of settings. -/
def exported (settings : Settings) : Environment :=
  ⟨some settings.encoding, some settings.format, some settings.byteOrder, some settings.logLevel⟩

/-- The name of a value, in the case in which names are looked up, chooses itself. -/
theorem chosen_name {recase : List Char → List Char} {isName : String → Bool}
    {names : List String}
    (h : ∀ name ∈ names, recase name.toList = name.toList ∧ isName name = true) {name : String}
    (hm : name ∈ names) : chosen recase isName (some name) = some name := by
  obtain ⟨hcase, hname⟩ := h name hm
  simp [chosen, hcase, Option.filter, hname]

/-- **Valid settings come back from the environment that holds them.** -/
theorem ofEnvironment_exported {settings : Settings} (h : settings.IsValid) :
    ofEnvironment settings.exported = settings := by
  have hencoding : (some settings.encoding).filter isKnown = some settings.encoding :=
    Option.filter_eq_some_iff.2 ⟨rfl, h.encoding⟩
  have hformat : chosen Text.lower (Format.ofName? · |>.isSome) (some settings.format) =
      some settings.format := chosen_name (by decide +kernel) h.format
  have horder : chosen Text.lower (ByteOrder.ofName? · |>.isSome) (some settings.byteOrder) =
      some settings.byteOrder := chosen_name (by decide +kernel) h.byteOrder
  have hlevel : chosen Text.upper (LogLevel.ofName? · |>.isSome) (some settings.logLevel) =
      some settings.logLevel := chosen_name (by decide +kernel) h.logLevel
  rw [ofEnvironment, exported, hencoding, hformat, horder, hlevel]
  rfl

end Settings

end StackAssembler
