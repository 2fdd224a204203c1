/-!
# Output formats

The forms in which an assembled program is written: the binary image, or a listing of one word a
line in decimal or in hexadecimal.
-/

namespace StackAssembler

/-- The number notation of a listing. -/
inductive Style
  | text
  | hex
  deriving DecidableEq, Repr

namespace Style

/-- The name of a style. -/
def name : Style → String
  | text => "text"
  | hex => "hex"

/-- Both styles. -/
def all : List Style := [text, hex]

/-- The style of a name. -/
def ofName? (name : String) : Option Style := all.find? fun style => style.name == name

end Style

/-- A form of output. -/
inductive Format
  | binary
  | listing (style : Style)
  deriving DecidableEq, Repr

namespace Format

/-- The name of a format in settings and options. -/
def name : Format → String
  | binary => "binary"
  | listing style => style.name

/-- All formats, in the order in which messages list them. -/
def all : List Format := [binary, listing .text, listing .hex]

/-- The format of a name; the spelling must be exact. -/
def ofName? (name : String) : Option Format := all.find? fun format => format.name == name

end Format

end StackAssembler
