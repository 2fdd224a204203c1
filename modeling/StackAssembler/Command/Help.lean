/-!
# Help

The texts that tell a user about the command.
-/

namespace StackAssembler.Command

/-- The name of the command. -/
def name : String := "smasm"

/-- The version of the command. -/
def version : String := "1.0.0"

/-- The line that tells the version. -/
def versionLine : String := String.join [name, ", version ", version]

/-- How the command is called. -/
def usageLine : String := String.join ["Usage: ", name, " [OPTIONS] INPUT_FILE"]

/-- The lines before the message about a wrong command line. -/
def reminder : List String :=
  [usageLine, String.join ["Try '", name, " --help' for help."], ""]

/-- The lines of the help text. -/
def helpLines : List String := [
  usageLine,
  "",
  "  Assemble a stack machine program into 32-bit words.",
  "",
  "  INPUT_FILE is the assembly source file to compile.",
  "",
  "  Examples:",
  "      smasm prog.sm                  # Outputs prog.bin",
  "      smasm prog.sm -f hex -o -      # Hex listing on stdout",
  "      smasm -D base=100 prog.sm      # Pre-define label",
  "",
  "Options:",
  "  -o, --output FILE               Output file, '-' for stdout (default: input",
  "                                  with .bin or .txt suffix)",
  "  -f, --format [binary|text|hex]  Output format: raw 32-bit words, decimal or",
  "                                  hex listing. Default: binary.",
  "  --byteorder [little|big]        Byte order of binary output. Default: little.",
  "  -s, --symbols FILE              Generate label table file",
  "  -e, --encoding TEXT             Encoding of the source file. Default: utf-8.",
  "  -D, --define TEXT               Pre-define label (format: NAME=ADDRESS)",
  "  -v, --verbose                   Verbose output",
  "  --version                       Show the version and exit.",
  "  --help                          Show this message and exit."]

end StackAssembler.Command
