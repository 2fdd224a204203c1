import StackAssembler.Encoding.Scheme

/-!
# Names of encodings

An encoding has a name of its own and other names that stand for it.  Upper and lower case are the
same, and any run of characters other than letters, digits and the full stop counts as one
separator; separators at either end count for nothing.  In a name that stands for another, a full
stop may take the place of a separator.
-/

namespace StackAssembler.Encoding

/-- A character that is part of a name. -/
def isNameChar (c : Char) : Bool := c.isAlphanum || c == '.'

/-- A name in lower case with one underscore for each separator.  `owed` says that a separator was
seen since the last letter of the name, and `begun` that there was such a letter. -/
def canonicalFrom (begun owed : Bool) : List Char → List Char
  | [] => []
  | c :: rest =>
    if isNameChar c then
      if begun && owed then '_' :: c.toLower :: canonicalFrom true false rest
      else c.toLower :: canonicalFrom true false rest
    else canonicalFrom begun true rest

/-- The form of a name that is looked up. -/
def canonicalName (name : String) : String :=
  String.ofList (canonicalFrom false false name.toList)

/-- The encodings that can be read, by their own names. -/
def ownNames : List (String × Encoding) :=
  [("utf_8", utf8), ("utf_8_sig", signedUtf8), ("utf_16", markedUtf16),
    ("utf_16_le", utf16 .little), ("utf_16_be", utf16 .big), ("utf_32", markedUtf32),
    ("utf_32_le", utf32 .little), ("utf_32_be", utf32 .big), ("ascii", charset .ascii),
    ("latin_1", charset .latin1), ("cp1252", charset .cp1252), ("raw_unicode_escape", escaped)]

/-- The own names of encodings that settings accept although no program can be read in them here. -/
def acceptedNames : List String := ["hex_codec", "rot_13", "koi8_r", "shift_jis", "big5"]

/-- The names that stand for others. -/
def aliases : List (String × String) :=
  [("u8", "utf_8"), ("utf", "utf_8"), ("utf8", "utf_8"), ("utf8_ucs2", "utf_8"),
    ("utf8_ucs4", "utf_8"), ("cp65001", "utf_8"),
    ("u16", "utf_16"), ("utf16", "utf_16"),
    ("unicodelittleunmarked", "utf_16_le"), ("utf_16le", "utf_16_le"),
    ("unicodebigunmarked", "utf_16_be"), ("utf_16be", "utf_16_be"),
    ("u32", "utf_32"), ("utf32", "utf_32"),
    ("utf_32le", "utf_32_le"), ("utf_32be", "utf_32_be"),
    ("646", "ascii"), ("ansi_x3.4_1968", "ascii"), ("ansi_x3_4_1968", "ascii"),
    ("ansi_x3.4_1986", "ascii"), ("cp367", "ascii"), ("csascii", "ascii"), ("ibm367", "ascii"),
    ("iso646_us", "ascii"), ("iso_646.irv_1991", "ascii"), ("iso_ir_6", "ascii"), ("us", "ascii"),
    ("us_ascii", "ascii"),
    ("8859", "latin_1"), ("cp819", "latin_1"), ("csisolatin1", "latin_1"), ("ibm819", "latin_1"),
    ("iso8859", "latin_1"), ("iso8859_1", "latin_1"), ("iso_8859_1", "latin_1"),
    ("iso_8859_1_1987", "latin_1"), ("iso_ir_100", "latin_1"), ("l1", "latin_1"),
    ("latin", "latin_1"), ("latin1", "latin_1"),
    ("1252", "cp1252"), ("windows_1252", "cp1252"),
    ("hex", "hex_codec"), ("rot13", "rot_13"), ("cskoi8r", "koi8_r"),
    ("csshiftjis", "shift_jis"), ("shiftjis", "shift_jis"), ("sjis", "shift_jis"),
    ("s_jis", "shift_jis"), ("x_mac_japanese", "shift_jis"),
    ("big5_tw", "big5"), ("csbig5", "big5"), ("x_mac_trad_chinese", "big5")]

/-- A canonical name in which full stops are separators, too. -/
def withoutStops (name : String) : String :=
  String.ofList (name.toList.map fun c => if c = '.' then '_' else c)

/-- The own name of the encoding that a name stands for; a name that stands for no other is left as
it is, in canonical form. -/
def ownName (name : String) : String :=
  let canonical := canonicalName name
  ((aliases.lookup canonical).or (aliases.lookup (withoutStops canonical))).getD canonical

/-- Whether a text may be a name at all: it must be free of NUL characters. -/
def isName (text : String) : Bool := !text.toList.contains '\x00'

/-- The encoding of a name. -/
def ofName? (name : String) : Option Encoding :=
  if isName name then ownNames.lookup (ownName name) else none

/-- A name that settings accept. -/
def isKnown (name : String) : Bool :=
  isName name && ((ownNames.lookup (ownName name)).isSome || acceptedNames.contains (ownName name))

end StackAssembler.Encoding
