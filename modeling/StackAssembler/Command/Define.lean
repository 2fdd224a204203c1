import StackAssembler.Command.Option
import StackAssembler.LabelTable
import StackAssembler.Text.Numeral

/-!
# Labels on the command line

A label is defined on the command line as a name, an equals sign and a number, decimal or with the
mark `0x` hexadecimal.  A name alone has the address one.  Blanks around the name and the number do
not count.
-/

namespace StackAssembler.Command

namespace Define

/-- The number of a text.  Behind the mark, the hexadecimal digits are read as a number of their
own. -/
def value? (text : List Char) : Option Int :=
  match Text.trim text with
  | '0' :: 'x' :: rest => Text.integer? .sixteen rest
  | '0' :: 'X' :: rest => Text.integer? .sixteen rest
  | trimmed => Text.integer? .ten trimmed

/-- The label and the address of a definition. -/
def parse (text : String) : Except UsageError (LabelName × Int) :=
  let chars := text.toList
  let name := Text.trim (chars.takeWhile (· != '='))
  if '=' ∈ chars then
    match value? ((chars.dropWhile (· != '=')).drop 1) with
    | some value => .ok (name, value)
    | none => .error (.badDefine text)
  else .ok (name, 1)

end Define

end StackAssembler.Command
