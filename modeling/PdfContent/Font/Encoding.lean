/-!
# Encoding — the glyph names of one-byte character codes

The three standard encodings agree on the printable ASCII characters, except for the two quotation marks.
-/
namespace PdfContent

/-- Glyph names for codes, in runs of consecutive codes: the first code of a run and its names. -/
structure Encoding where
  runs : List (Nat × List String)

namespace Encoding

def name? (e : Encoding) (code : Nat) : Option String :=
  e.runs.findSome? fun (first, names) => if first ≤ code then names[code - first]? else none

/-- The names of the codes from 32 to 126, given those of the codes 39 and 96. -/
def latin (quote grave : String) : List String :=
  [
    "space", "exclam", "quotedbl", "numbersign", "dollar", "percent", "ampersand", quote, "parenleft", "parenright",
    "asterisk", "plus", "comma", "hyphen", "period", "slash", "zero", "one", "two", "three", "four", "five", "six",
    "seven", "eight", "nine", "colon", "semicolon", "less", "equal", "greater", "question", "at", "A", "B", "C", "D",
    "E", "F", "G", "H", "I", "J", "K", "L", "M", "N", "O", "P", "Q", "R", "S", "T", "U", "V", "W", "X", "Y", "Z",
    "bracketleft", "backslash", "bracketright", "asciicircum", "underscore", grave, "a", "b", "c", "d", "e", "f", "g",
    "h", "i", "j", "k", "l", "m", "n", "o", "p", "q", "r", "s", "t", "u", "v", "w", "x", "y", "z", "braceleft", "bar",
    "braceright", "asciitilde"]

def standard : Encoding :=
  ⟨[(32, latin "quoteright" "quoteleft"),
    (161, [
      "exclamdown", "cent", "sterling", "fraction", "yen", "florin", "section", "currency", "quotesingle",
      "quotedblleft", "guillemotleft", "guilsinglleft", "guilsinglright", "fi", "fl"]),
    (177, [
      "endash", "dagger", "daggerdbl", "periodcentered"]),
    (182, [
      "paragraph", "bullet", "quotesinglbase", "quotedblbase", "quotedblright", "guillemotright", "ellipsis",
      "perthousand"]),
    (191, [
      "questiondown"]),
    (193, [
      "grave", "acute", "circumflex", "tilde", "macron", "breve", "dotaccent", "dieresis"]),
    (202, [
      "ring", "cedilla"]),
    (205, [
      "hungarumlaut", "ogonek", "caron", "emdash"]),
    (225, [
      "AE"]),
    (227, [
      "ordfeminine"]),
    (232, [
      "Lslash", "Oslash", "OE", "ordmasculine"]),
    (241, [
      "ae"]),
    (245, [
      "dotlessi"]),
    (248, [
      "lslash", "oslash", "oe", "germandbls"])]⟩

def macRoman : Encoding :=
  ⟨[(32, latin "quotesingle" "grave"),
    (128, [
      "Adieresis", "Aring", "Ccedilla", "Eacute", "Ntilde", "Odieresis", "Udieresis", "aacute", "agrave",
      "acircumflex", "adieresis", "atilde", "aring", "ccedilla", "eacute", "egrave", "ecircumflex", "edieresis",
      "iacute", "igrave", "icircumflex", "idieresis", "ntilde", "oacute", "ograve", "ocircumflex", "odieresis",
      "otilde", "uacute", "ugrave", "ucircumflex", "udieresis", "dagger", "degree", "cent", "sterling", "section",
      "bullet", "paragraph", "germandbls", "registered", "copyright", "trademark", "acute", "dieresis"]),
    (174, [
      "AE", "Oslash"]),
    (177, [
      "plusminus"]),
    (180, [
      "yen", "mu"]),
    (187, [
      "ordfeminine", "ordmasculine"]),
    (190, [
      "ae", "oslash", "questiondown", "exclamdown", "logicalnot"]),
    (196, [
      "florin"]),
    (199, [
      "guillemotleft", "guillemotright", "ellipsis", "space", "Agrave", "Atilde", "Otilde", "OE", "oe", "endash",
      "emdash", "quotedblleft", "quotedblright", "quoteleft", "quoteright", "divide"]),
    (216, [
      "ydieresis", "Ydieresis", "fraction", "currency", "guilsinglleft", "guilsinglright", "fi", "fl", "daggerdbl",
      "periodcentered", "quotesinglbase", "quotedblbase", "perthousand", "Acircumflex", "Ecircumflex", "Aacute",
      "Edieresis", "Egrave", "Iacute", "Icircumflex", "Idieresis", "Igrave", "Oacute", "Ocircumflex"]),
    (241, [
      "Ograve", "Uacute", "Ucircumflex", "Ugrave", "dotlessi", "circumflex", "tilde", "macron", "breve", "dotaccent",
      "ring", "cedilla", "hungarumlaut", "ogonek", "caron"])]⟩

def winAnsi : Encoding :=
  ⟨[(32, latin "quotesingle" "grave"),
    (128, [
      "Euro"]),
    (130, [
      "quotesinglbase", "florin", "quotedblbase", "ellipsis", "dagger", "daggerdbl", "circumflex", "perthousand",
      "Scaron", "guilsinglleft", "OE"]),
    (142, [
      "Zcaron"]),
    (145, [
      "quoteleft", "quoteright", "quotedblleft", "quotedblright", "bullet", "endash", "emdash", "tilde", "trademark",
      "scaron", "guilsinglright", "oe"]),
    (158, [
      "zcaron", "Ydieresis", "space", "exclamdown", "cent", "sterling", "currency", "yen", "brokenbar", "section",
      "dieresis", "copyright", "ordfeminine", "guillemotleft", "logicalnot", "space", "registered", "macron",
      "degree", "plusminus", "twosuperior", "threesuperior", "acute", "mu", "paragraph", "periodcentered", "cedilla",
      "onesuperior", "ordmasculine", "guillemotright", "onequarter", "onehalf", "threequarters", "questiondown",
      "Agrave", "Aacute", "Acircumflex", "Atilde", "Adieresis", "Aring", "AE", "Ccedilla", "Egrave", "Eacute",
      "Ecircumflex", "Edieresis", "Igrave", "Iacute", "Icircumflex", "Idieresis", "Eth", "Ntilde", "Ograve", "Oacute",
      "Ocircumflex", "Otilde", "Odieresis", "multiply", "Oslash", "Ugrave", "Uacute", "Ucircumflex", "Udieresis",
      "Yacute", "Thorn", "germandbls", "agrave", "aacute", "acircumflex", "atilde", "adieresis", "aring", "ae",
      "ccedilla", "egrave", "eacute", "ecircumflex", "edieresis", "igrave", "iacute", "icircumflex", "idieresis",
      "eth", "ntilde", "ograve", "oacute", "ocircumflex", "otilde", "odieresis", "divide", "oslash", "ugrave",
      "uacute", "ucircumflex", "udieresis", "yacute", "thorn", "ydieresis"])]⟩

end Encoding

end PdfContent
