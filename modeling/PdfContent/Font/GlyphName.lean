import PdfContent.Text.Unicode
/-!
# Glyph name — the text that the name of a glyph stands for

A name is looked up in the list of Latin glyph names; other names may give code points in hexadecimal, as `uni` with
UTF-16 units of four digits or as `u` with one code point.
-/
namespace PdfContent.GlyphName

def latin : List (String × Nat) :=
  [
    ("A", 0x0041), ("AE", 0x00c6), ("Aacute", 0x00c1), ("Abreve", 0x0102), ("Acircumflex", 0x00c2),
    ("Adieresis", 0x00c4), ("Agrave", 0x00c0), ("Amacron", 0x0100), ("Aogonek", 0x0104), ("Aring", 0x00c5),
    ("Atilde", 0x00c3), ("B", 0x0042), ("C", 0x0043), ("Cacute", 0x0106), ("Ccaron", 0x010c), ("Ccedilla", 0x00c7),
    ("D", 0x0044), ("Dcaron", 0x010e), ("Dcroat", 0x0110), ("Delta", 0x2206), ("E", 0x0045), ("Eacute", 0x00c9),
    ("Ecaron", 0x011a), ("Ecircumflex", 0x00ca), ("Edieresis", 0x00cb), ("Egrave", 0x00c8), ("Emacron", 0x0112),
    ("Eogonek", 0x0118), ("Eth", 0x00d0), ("Euro", 0x20ac), ("F", 0x0046), ("G", 0x0047), ("Gamma", 0x0393),
    ("Gbreve", 0x011e), ("H", 0x0048), ("I", 0x0049), ("Iacute", 0x00cd), ("Icircumflex", 0x00ce),
    ("Idieresis", 0x00cf), ("Idotaccent", 0x0130), ("Igrave", 0x00cc), ("Imacron", 0x012a), ("J", 0x004a),
    ("K", 0x004b), ("L", 0x004c), ("Lacute", 0x0139), ("Lambda", 0x039b), ("Lcaron", 0x013d), ("Lslash", 0x0141),
    ("M", 0x004d), ("N", 0x004e), ("Nacute", 0x0143), ("Ncaron", 0x0147), ("Ntilde", 0x00d1), ("O", 0x004f),
    ("OE", 0x0152), ("Oacute", 0x00d3), ("Ocircumflex", 0x00d4), ("Odieresis", 0x00d6), ("Ograve", 0x00d2),
    ("Ohungarumlaut", 0x0150), ("Omacron", 0x014c), ("Omega", 0x2126), ("Oslash", 0x00d8), ("Otilde", 0x00d5),
    ("P", 0x0050), ("Phi", 0x03a6), ("Pi", 0x03a0), ("Psi", 0x03a8), ("Q", 0x0051), ("R", 0x0052), ("Racute", 0x0154),
    ("Rcaron", 0x0158), ("S", 0x0053), ("Sacute", 0x015a), ("Scaron", 0x0160), ("Scedilla", 0x015e),
    ("Scommaaccent", 0x0218), ("Sigma", 0x03a3), ("T", 0x0054), ("Tcaron", 0x0164), ("Tcedilla", 0x0162),
    ("Tcommaaccent", 0x021a), ("Theta", 0x0398), ("Thorn", 0x00de), ("U", 0x0055), ("Uacute", 0x00da),
    ("Ucircumflex", 0x00db), ("Udieresis", 0x00dc), ("Ugrave", 0x00d9), ("Uhungarumlaut", 0x0170),
    ("Umacron", 0x016a), ("Uring", 0x016e), ("V", 0x0056), ("W", 0x0057), ("X", 0x0058), ("Xi", 0x039e),
    ("Y", 0x0059), ("Yacute", 0x00dd), ("Ydieresis", 0x0178), ("Z", 0x005a), ("Zacute", 0x0179), ("Zcaron", 0x017d),
    ("Zdotaccent", 0x017b), ("a", 0x0061), ("aacute", 0x00e1), ("abreve", 0x0103), ("acircumflex", 0x00e2),
    ("acute", 0x00b4), ("adieresis", 0x00e4), ("ae", 0x00e6), ("agrave", 0x00e0), ("alpha", 0x03b1),
    ("amacron", 0x0101), ("ampersand", 0x0026), ("aogonek", 0x0105), ("apple", 0xf8ff), ("approxequal", 0x2248),
    ("aring", 0x00e5), ("arrowdown", 0x2193), ("arrowleft", 0x2190), ("arrowright", 0x2192), ("arrowup", 0x2191),
    ("asciicircum", 0x005e), ("asciitilde", 0x007e), ("asterisk", 0x002a), ("at", 0x0040), ("atilde", 0x00e3),
    ("b", 0x0062), ("backslash", 0x005c), ("bar", 0x007c), ("beta", 0x03b2), ("braceleft", 0x007b),
    ("braceright", 0x007d), ("bracketleft", 0x005b), ("bracketright", 0x005d), ("breve", 0x02d8),
    ("brokenbar", 0x00a6), ("bullet", 0x2022), ("c", 0x0063), ("cacute", 0x0107), ("caron", 0x02c7),
    ("ccaron", 0x010d), ("ccedilla", 0x00e7), ("cedilla", 0x00b8), ("cent", 0x00a2), ("checkmark", 0x2713),
    ("chi", 0x03c7), ("circumflex", 0x02c6), ("colon", 0x003a), ("comma", 0x002c), ("copyright", 0x00a9),
    ("currency", 0x00a4), ("d", 0x0064), ("dagger", 0x2020), ("daggerdbl", 0x2021), ("dcaron", 0x010f),
    ("dcroat", 0x0111), ("degree", 0x00b0), ("delta", 0x03b4), ("dieresis", 0x00a8), ("divide", 0x00f7),
    ("dollar", 0x0024), ("dotaccent", 0x02d9), ("dotlessi", 0x0131), ("dotlessj", 0x0237), ("e", 0x0065),
    ("eacute", 0x00e9), ("ecaron", 0x011b), ("ecircumflex", 0x00ea), ("edieresis", 0x00eb), ("egrave", 0x00e8),
    ("eight", 0x0038), ("ellipsis", 0x2026), ("emacron", 0x0113), ("emdash", 0x2014), ("endash", 0x2013),
    ("eogonek", 0x0119), ("epsilon", 0x03b5), ("equal", 0x003d), ("eta", 0x03b7), ("eth", 0x00f0), ("exclam", 0x0021),
    ("exclamdown", 0x00a1), ("f", 0x0066), ("ff", 0xfb00), ("ffi", 0xfb03), ("ffl", 0xfb04), ("fi", 0xfb01),
    ("five", 0x0035), ("fl", 0xfb02), ("florin", 0x0192), ("four", 0x0034), ("fraction", 0x2044), ("g", 0x0067),
    ("gamma", 0x03b3), ("gbreve", 0x011f), ("germandbls", 0x00df), ("grave", 0x0060), ("greater", 0x003e),
    ("greaterequal", 0x2265), ("guillemotleft", 0x00ab), ("guillemotright", 0x00bb), ("guilsinglleft", 0x2039),
    ("guilsinglright", 0x203a), ("h", 0x0068), ("hungarumlaut", 0x02dd), ("hyphen", 0x002d), ("i", 0x0069),
    ("iacute", 0x00ed), ("icircumflex", 0x00ee), ("idieresis", 0x00ef), ("igrave", 0x00ec), ("imacron", 0x012b),
    ("infinity", 0x221e), ("integral", 0x222b), ("iota", 0x03b9), ("j", 0x006a), ("k", 0x006b), ("kappa", 0x03ba),
    ("l", 0x006c), ("lacute", 0x013a), ("lambda", 0x03bb), ("lcaron", 0x013e), ("less", 0x003c),
    ("lessequal", 0x2264), ("logicalnot", 0x00ac), ("lozenge", 0x25ca), ("lslash", 0x0142), ("m", 0x006d),
    ("macron", 0x00af), ("minus", 0x2212), ("mu", 0x00b5), ("multiply", 0x00d7), ("n", 0x006e), ("nacute", 0x0144),
    ("nbspace", 0x00a0), ("ncaron", 0x0148), ("nine", 0x0039), ("notequal", 0x2260), ("ntilde", 0x00f1),
    ("nu", 0x03bd), ("numbersign", 0x0023), ("o", 0x006f), ("oacute", 0x00f3), ("ocircumflex", 0x00f4),
    ("odieresis", 0x00f6), ("oe", 0x0153), ("ogonek", 0x02db), ("ograve", 0x00f2), ("ohungarumlaut", 0x0151),
    ("omacron", 0x014d), ("omega", 0x03c9), ("omicron", 0x03bf), ("one", 0x0031), ("onehalf", 0x00bd),
    ("onequarter", 0x00bc), ("onesuperior", 0x00b9), ("ordfeminine", 0x00aa), ("ordmasculine", 0x00ba),
    ("oslash", 0x00f8), ("otilde", 0x00f5), ("p", 0x0070), ("paragraph", 0x00b6), ("parenleft", 0x0028),
    ("parenright", 0x0029), ("partialdiff", 0x2202), ("percent", 0x0025), ("period", 0x002e),
    ("periodcentered", 0x00b7), ("perthousand", 0x2030), ("phi", 0x03c6), ("pi", 0x03c0), ("plus", 0x002b),
    ("plusminus", 0x00b1), ("product", 0x220f), ("psi", 0x03c8), ("q", 0x0071), ("question", 0x003f),
    ("questiondown", 0x00bf), ("quotedbl", 0x0022), ("quotedblbase", 0x201e), ("quotedblleft", 0x201c),
    ("quotedblright", 0x201d), ("quoteleft", 0x2018), ("quoteright", 0x2019), ("quotesinglbase", 0x201a),
    ("quotesingle", 0x0027), ("r", 0x0072), ("racute", 0x0155), ("radical", 0x221a), ("rcaron", 0x0159),
    ("registered", 0x00ae), ("rho", 0x03c1), ("ring", 0x02da), ("s", 0x0073), ("sacute", 0x015b), ("scaron", 0x0161),
    ("scedilla", 0x015f), ("scommaaccent", 0x0219), ("section", 0x00a7), ("semicolon", 0x003b), ("seven", 0x0037),
    ("sfthyphen", 0x00ad), ("sigma", 0x03c3), ("six", 0x0036), ("slash", 0x002f), ("space", 0x0020),
    ("sterling", 0x00a3), ("summation", 0x2211), ("t", 0x0074), ("tau", 0x03c4), ("tcaron", 0x0165),
    ("tcedilla", 0x0163), ("tcommaaccent", 0x021b), ("theta", 0x03b8), ("thorn", 0x00fe), ("three", 0x0033),
    ("threequarters", 0x00be), ("threesuperior", 0x00b3), ("tilde", 0x02dc), ("trademark", 0x2122), ("two", 0x0032),
    ("twosuperior", 0x00b2), ("u", 0x0075), ("uacute", 0x00fa), ("ucircumflex", 0x00fb), ("udieresis", 0x00fc),
    ("ugrave", 0x00f9), ("uhungarumlaut", 0x0171), ("umacron", 0x016b), ("underscore", 0x005f), ("upsilon", 0x03c5),
    ("uring", 0x016f), ("v", 0x0076), ("w", 0x0077), ("x", 0x0078), ("xi", 0x03be), ("y", 0x0079), ("yacute", 0x00fd),
    ("ydieresis", 0x00ff), ("yen", 0x00a5), ("z", 0x007a), ("zacute", 0x017a), ("zcaron", 0x017e),
    ("zdotaccent", 0x017c), ("zero", 0x0030), ("zeta", 0x03b6)]

def ofUnits? (digits : Bytes) : Option String :=
  ((Bytes.groups 4 digits).mapM Unicode.hexNumber?).bind fun units =>
    ((Unicode.utf16 units).mapM id).map String.ofList

def ofCodePoint? (n : Nat) : Option String := if n.isValidChar then some (String.singleton (Char.ofNat n)) else none

def after? (head : List Char) (s : List Char) : Option Bytes :=
  if head.isPrefixOf s then some (Unicode.toUtf8 (String.ofList (s.drop head.length))) else none

def ofHex? (base : List Char) : Option String :=
  match (after? ['u', 'n', 'i'] base).filter fun d => !d.isEmpty && d.length % 4 == 0 with
  | some digits => ofUnits? digits
  | none =>
    ((after? ['u'] base).filter fun d => 4 ≤ d.length && d.length ≤ 6).bind fun digits =>
      (Unicode.hexNumber? digits).bind ofCodePoint?

/-- The text that a glyph name stands for; what follows the first period is a variant of the glyph. -/
def text? (name : String) : Option String :=
  let base := name.toList.takeWhile (· != '.')
  match latin.lookup (String.ofList base) with
  | some n => ofCodePoint? n
  | none => ofHex? base

end PdfContent.GlyphName
