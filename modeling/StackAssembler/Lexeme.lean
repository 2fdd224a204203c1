import StackAssembler.Machine.Opcode
import StackAssembler.Source.Token

/-!
# Kinds of words

A word is an integer if all its characters are digits (so the empty word is one), an instruction if
it is a mnemonic in any mixture of cases, the definition of a label if it is a name followed by a
colon, and a reference to a label if it is a name after an ampersand.  A name is one or more of the
letters `a` to `z` and the underscore.  A word of none of these shapes is an error.
-/

namespace StackAssembler

/-- A kind of word. -/
inductive Kind
  | integer
  | instruction
  | labelDefinition
  | labelReference
  deriving DecidableEq, Repr

namespace Kind

/-- The kinds, in the order in which their shapes are tried. -/
def all : List Kind := [integer, instruction, labelDefinition, labelReference]

/-- The name of a kind. -/
def name : Kind → String
  | integer => "INTEGER"
  | instruction => "INSTRUCTION"
  | labelDefinition => "LABEL_DEF"
  | labelReference => "LABEL_REF"

/-- The kind of a name. -/
def ofName? (name : String) : Option Kind := all.find? fun kind => kind.name == name

/-- A character of the name of a label. -/
def isLabelChar (c : Char) : Bool := ('a' ≤ c && c ≤ 'z') || c == '_'

/-- A word of digits. -/
def isInteger (word : List Char) : Bool := word.all Char.isDigit

/-- A mnemonic. -/
def isInstruction (word : List Char) : Bool := (Opcode.ofMnemonic? word).isSome

/-- A name followed by a colon. -/
def isLabelDefinition (word : List Char) : Bool :=
  2 ≤ word.length && word.getLast? == some ':' && word.dropLast.all isLabelChar

/-- A name after an ampersand. -/
def isLabelReference (word : List Char) : Bool :=
  2 ≤ word.length && word.head? == some '&' && word.tail.all isLabelChar

/-- Whether a word has the shape of a kind. -/
def fits : Kind → List Char → Bool
  | integer => isInteger
  | instruction => isInstruction
  | labelDefinition => isLabelDefinition
  | labelReference => isLabelReference

/-- The kind of a word. -/
def ofWord? (word : List Char) : Option Kind := all.find? fun kind => kind.fits word

/-- The kind of a word; a word of no known shape is reported at its place. -/
def ofWord (word : List Char) (location : Option Location) : Except Failure Kind :=
  match ofWord? word with
  | some kind => .ok kind
  | none => .error (.program ⟨.unrecognized word, location⟩)

end Kind

/-- A word of known kind; one made by hand need not have the shape of its kind, nor a place. -/
structure Lexeme where
  text : List Char
  kind : Kind
  location : Option Location
  deriving DecidableEq, Repr

namespace Lexeme

/-- Classifies a token. -/
def ofToken (token : Token) : Except Failure Lexeme := do
  let kind ← Kind.ofWord token.text (some token.location)
  return ⟨token.text, kind, some token.location⟩

/-- A word whose kind is given by its name. -/
def ofKindName (kind : String) (text : List Char) (location : Option Location) :
    Except Failure Lexeme :=
  match Kind.ofName? kind with
  | some kind => .ok ⟨text, kind, location⟩
  | none => .error (.internal (.unknownKind kind))

end Lexeme

end StackAssembler
