import Scribe.Unicode.Case

/-!
# Texts in capital and small letters

The capital form of a text is that of its characters. In the small form, a sigma that ends a word is
written in its final form: there is a letter before it and none after it, looking through the
characters that casing ignores.
-/

namespace Scribe.Text

open Unicode

def upcase (text : List Char) : List Char := text.flatMap upperChar

/-- Whether the first character that casing does not ignore is a cased one. -/
def meetsCased (text : List Char) : Bool :=
  ((text.dropWhile isCaseIgnorable).head?.map isCased).getD false

/-- `before` holds the characters already passed, the nearest first. -/
def downcaseAfter (before : List Char) : List Char → List Char
  | [] => []
  | c :: rest =>
    let image :=
      if c = 'Σ' then
        if meetsCased before && !meetsCased rest then ['ς'] else ['σ']
      else lowerChar c
    image ++ downcaseAfter (c :: before) rest

def downcase (text : List Char) : List Char := downcaseAfter [] text

/-- The first character in its capital form, the others as they are. -/
def capitalize : List Char → List Char
  | [] => []
  | c :: rest => upperChar c ++ rest

/-- The first character in its small form, the others as they are. -/
def uncapitalize : List Char → List Char
  | [] => []
  | c :: rest => lowerChar c ++ rest

end Scribe.Text
