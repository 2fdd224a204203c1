/-!
# Letter case

Case mapping of characters for comparison with ASCII words.  A letter may map to several
characters, and some letters outside ASCII map to ASCII letters: the Kelvin sign in lower case is
`k`, the dotless `ı` in upper case is `I`.  Letters whose image holds no ASCII character are left
as they are; a comparison with an ASCII word does not tell them apart.
-/

namespace StackAssembler.Text

/-- The lower case of a character. -/
def lowerChar (c : Char) : List Char :=
  if c = '\u0130' then ['i', '\u0307']
  else if c = '\u212a' then ['k']
  else [c.toLower]

/-- The letters outside ASCII whose upper case holds an ASCII letter. -/
def upperSpecial : List (Char × List Char) :=
  [('\u00df', ['S', 'S']), ('\u0131', ['I']), ('\u0149', ['\u02bc', 'N']), ('\u017f', ['S']),
    ('\u01f0', ['J', '\u030c']), ('\u1e96', ['H', '\u0331']), ('\u1e97', ['T', '\u0308']),
    ('\u1e98', ['W', '\u030a']), ('\u1e99', ['Y', '\u030a']), ('\u1e9a', ['A', '\u02be']),
    ('\ufb00', ['F', 'F']), ('\ufb01', ['F', 'I']), ('\ufb02', ['F', 'L']),
    ('\ufb03', ['F', 'F', 'I']), ('\ufb04', ['F', 'F', 'L']), ('\ufb05', ['S', 'T']),
    ('\ufb06', ['S', 'T'])]

/-- The upper case of a character. -/
def upperChar (c : Char) : List Char :=
  (upperSpecial.lookup c).getD [c.toUpper]

/-- A text in lower case. -/
def lower (text : List Char) : List Char := text.flatMap lowerChar

/-- A text in upper case. -/
def upper (text : List Char) : List Char := text.flatMap upperChar

@[simp] theorem lower_nil : lower [] = [] := rfl

@[simp] theorem lower_cons (c : Char) (text : List Char) :
    lower (c :: text) = lowerChar c ++ lower text := by
  simp [lower]

end StackAssembler.Text
