/-
# `AndroidFonts.Pattern.Property` — the names of character properties

A pattern may speak of a property of characters by its name, as in `\p{Greek}`, or by the name of
a property with several values and one of them, as in `\p{script=Greek}`.  The names are those of
Unicode 16, short or long.  They are compared without regard to case, blanks, low lines, hyphens and
a leading `is`, so the lists hold their plain forms.

Which names there are decides whether a pattern makes sense.  Which characters have a property does
not come up: text is only searched for the sets of `AndroidFonts.CharSet`.
-/
import AndroidFonts.Text.Search

namespace AndroidFonts

/-- A property of characters as it is written. -/
inductive CharProperty where
  | named (name : String)
  | valued (name value : String)
deriving Repr, DecidableEq

namespace CharProperty

/-- The characters of a name that count, in lower case. -/
def plainChars (s : List Char) : List Char :=
  (s.filter fun c => c.toNat < 0x80 && c ≠ ' ' && c ≠ '_' && c ≠ '-').map Char.toLower

/-- The plain form of a name.  `is` in front is no part of it, except in the name `isc`. -/
def plain (s : List Char) : List Char :=
  match s with
  | i :: s' :: rest =>
    if i.toLower = 'i' && s'.toLower = 's' then
      let name := plainChars rest
      if name = ['c'] then "isc".toList else name
    else plainChars (i :: s' :: rest)
  | s => plainChars s

/-- The properties that a character has or has not. -/
def binaryNames : List String := [
    "ahex", "alpha", "alphabetic", "asciihexdigit", "bidic", "bidicontrol", "bidim",
    "bidimirrored", "cased", "caseignorable", "changeswhencasefolded", "changeswhencasemapped",
    "changeswhenlowercased", "changeswhentitlecased", "changeswhenuppercased", "ci", "cwcf",
    "cwcm", "cwl", "cwt", "cwu", "dash", "defaultignorablecodepoint", "dep", "deprecated", "di",
    "dia", "diacritic", "ebase", "ecomp", "emod", "emoji", "emojicomponent", "emojimodifier",
    "emojimodifierbase", "emojipresentation", "epres", "ext", "extendedpictographic", "extender",
    "extpict", "graphemebase", "graphemeextend", "graphemelink", "grbase", "grext", "grlink",
    "hex", "hexdigit", "hyphen", "idc", "idcompatmathcontinue", "idcompatmathstart",
    "idcontinue", "ideo", "ideographic", "ids", "idsb", "idsbinaryoperator", "idst", "idstart",
    "idstrinaryoperator", "idsu", "idsunaryoperator", "joinc", "joincontrol", "loe",
    "logicalorderexception", "lower", "lowercase", "math", "mcm", "modifiercombiningmark",
    "nchar", "noncharactercodepoint", "oalpha", "odi", "ogrext", "oidc", "oids", "olower",
    "omath", "otheralphabetic", "otherdefaultignorablecodepoint", "othergraphemeextend",
    "otheridcontinue", "otheridstart", "otherlowercase", "othermath", "otheruppercase", "oupper",
    "patsyn", "patternsyntax", "patternwhitespace", "patws", "pcm", "prependedconcatenationmark",
    "qmark", "quotationmark", "radical", "regionalindicator", "ri", "sd", "sentenceterminal",
    "softdotted", "space", "sterm", "term", "terminalpunctuation", "uideo", "unifiedideograph",
    "upper", "uppercase", "variationselector", "vs", "whitespace", "wspace", "xidc",
    "xidcontinue", "xids", "xidstart"]

/-- The general categories, and three sets that are named like them. -/
def categoryNames : List String := [
    "any", "ascii", "assigned", "c", "casedletter", "cc", "cf", "closepunctuation", "cn",
    "cntrl", "co", "combiningmark", "connectorpunctuation", "control", "currencysymbol",
    "dashpunctuation", "decimalnumber", "digit", "enclosingmark", "finalpunctuation", "format",
    "initialpunctuation", "l", "lc", "letter", "letternumber", "lineseparator", "ll", "lm", "lo",
    "lowercaseletter", "lt", "lu", "m", "mark", "mathsymbol", "mc", "me", "mn", "modifierletter",
    "modifiersymbol", "n", "nd", "nl", "no", "nonspacingmark", "number", "openpunctuation",
    "other", "otherletter", "othernumber", "otherpunctuation", "othersymbol", "p",
    "paragraphseparator", "pc", "pd", "pe", "pf", "pi", "po", "privateuse", "ps", "punct",
    "punctuation", "s", "sc", "separator", "sk", "sm", "so", "spaceseparator", "spacingmark",
    "symbol", "titlecaseletter", "unassigned", "uppercaseletter", "z", "zl", "zp", "zs"]

/-- The scripts. -/
def scriptNames : List String := [
    "adlam", "adlm", "aghb", "ahom", "anatolianhieroglyphs", "arab", "arabic", "armenian",
    "armi", "armn", "avestan", "avst", "bali", "balinese", "bamu", "bamum", "bass", "bassavah",
    "batak", "batk", "beng", "bengali", "bhaiksuki", "bhks", "bopo", "bopomofo", "brah",
    "brahmi", "brai", "braille", "bugi", "buginese", "buhd", "buhid", "cakm",
    "canadianaboriginal", "cans", "cari", "carian", "caucasianalbanian", "chakma", "cham",
    "cher", "cherokee", "chorasmian", "chrs", "common", "copt", "coptic", "cpmn", "cprt",
    "cuneiform", "cypriot", "cyprominoan", "cyrillic", "cyrl", "deseret", "deva", "devanagari",
    "diak", "divesakuru", "dogr", "dogra", "dsrt", "dupl", "duployan", "egyp",
    "egyptianhieroglyphs", "elba", "elbasan", "elym", "elymaic", "ethi", "ethiopic", "gara",
    "garay", "geor", "georgian", "glag", "glagolitic", "gong", "gonm", "goth", "gothic", "gran",
    "grantha", "greek", "grek", "gujarati", "gujr", "gukh", "gunjalagondi", "gurmukhi", "guru",
    "gurungkhema", "han", "hang", "hangul", "hani", "hanifirohingya", "hano", "hanunoo", "hatr",
    "hatran", "hebr", "hebrew", "hira", "hiragana", "hluw", "hmng", "hmnp", "hung",
    "imperialaramaic", "inherited", "inscriptionalpahlavi", "inscriptionalparthian", "ital",
    "java", "javanese", "kaithi", "kali", "kana", "kannada", "katakana", "kawi", "kayahli",
    "khar", "kharoshthi", "khitansmallscript", "khmer", "khmr", "khoj", "khojki", "khudawadi",
    "kiratrai", "kits", "knda", "krai", "kthi", "lana", "lao", "laoo", "latin", "latn", "lepc",
    "lepcha", "limb", "limbu", "lina", "linb", "lineara", "linearb", "lisu", "lyci", "lycian",
    "lydi", "lydian", "mahajani", "mahj", "maka", "makasar", "malayalam", "mand", "mandaic",
    "mani", "manichaean", "marc", "marchen", "masaramgondi", "medefaidrin", "medf",
    "meeteimayek", "mend", "mendekikakui", "merc", "mero", "meroiticcursive",
    "meroitichieroglyphs", "miao", "mlym", "modi", "mong", "mongolian", "mro", "mroo", "mtei",
    "mult", "multani", "myanmar", "mymr", "nabataean", "nagm", "nagmundari", "nand",
    "nandinagari", "narb", "nbat", "newa", "newtailue", "nko", "nkoo", "nshu", "nushu",
    "nyiakengpuachuehmong", "ogam", "ogham", "olchiki", "olck", "oldhungarian", "olditalic",
    "oldnortharabian", "oldpermic", "oldpersian", "oldsogdian", "oldsoutharabian", "oldturkic",
    "olduyghur", "olonal", "onao", "oriya", "orkh", "orya", "osage", "osge", "osma", "osmanya",
    "ougr", "pahawhhmong", "palm", "palmyrene", "pauc", "paucinhau", "perm", "phag", "phagspa",
    "phli", "phlp", "phnx", "phoenician", "plrd", "prti", "psalterpahlavi", "qaac", "qaai",
    "rejang", "rjng", "rohg", "runic", "runr", "samaritan", "samr", "sarb", "saur", "saurashtra",
    "sgnw", "sharada", "shavian", "shaw", "shrd", "sidd", "siddham", "signwriting", "sind",
    "sinh", "sinhala", "sogd", "sogdian", "sogo", "sora", "sorasompeng", "soyo", "soyombo",
    "sund", "sundanese", "sunu", "sunuwar", "sylo", "sylotinagri", "syrc", "syriac", "tagalog",
    "tagb", "tagbanwa", "taile", "taitham", "taiviet", "takr", "takri", "tale", "talu", "tamil",
    "taml", "tang", "tangsa", "tangut", "tavt", "telu", "telugu", "tfng", "tglg", "thaa",
    "thaana", "thai", "tibetan", "tibt", "tifinagh", "tirh", "tirhuta", "tnsa", "todhri", "todr",
    "toto", "tulutigalari", "tutg", "ugar", "ugaritic", "vai", "vaii", "vith", "vithkuqi",
    "wancho", "wara", "warangciti", "wcho", "xpeo", "xsux", "yezi", "yezidi", "yi", "yiii",
    "zanabazarsquare", "zanb", "zinh", "zyyy"]

/-- The versions of Unicode. -/
def ageNames : List String := [
    "1.1", "v11", "2.0", "v20", "2.1", "v21", "3.0", "v30", "3.1", "v31", "3.2", "v32", "4.0",
    "v40", "4.1", "v41", "5.0", "v50", "5.1", "v51", "5.2", "v52", "6.0", "v60", "6.1", "v61",
    "6.2", "v62", "6.3", "v63", "7.0", "v70", "8.0", "v80", "9.0", "v90", "10.0", "v100", "11.0",
    "v110", "12.0", "v120", "12.1", "v121", "13.0", "v130", "14.0", "v140", "15.0", "v150",
    "15.1", "v151", "16.0", "v160"]

/-- The ways in which a character breaks grapheme clusters. -/
def graphemeNames : List String := [
    "cn", "control", "cr", "ex", "extend", "l", "lf", "lv", "lvt", "pp", "prepend",
    "regionalindicator", "ri", "sm", "spacingmark", "t", "v", "zwj"]

/-- The ways in which a character breaks words. -/
def wordNames : List String := [
    "aletter", "cr", "doublequote", "dq", "ex", "extend", "extendnumlet", "fo", "format",
    "hebrewletter", "hl", "ka", "katakana", "le", "lf", "mb", "midletter", "midnum", "midnumlet",
    "ml", "mn", "newline", "nl", "nu", "numeric", "regionalindicator", "ri", "singlequote", "sq",
    "wsegspace", "zwj"]

/-- The ways in which a character breaks sentences. -/
def sentenceNames : List String := [
    "at", "aterm", "cl", "close", "cr", "ex", "extend", "fo", "format", "le", "lf", "lo",
    "lower", "nu", "numeric", "oletter", "sc", "scontinue", "se", "sep", "sp", "st", "sterm",
    "up", "upper"]

/-- The values of a property that has several. -/
def valuesOf : String → List String
  | "gc" => categoryNames
  | "generalcategory" => categoryNames
  | "sc" => scriptNames
  | "script" => scriptNames
  | "scx" => scriptNames
  | "scriptextensions" => scriptNames
  | "age" => ageNames
  | "gcb" => graphemeNames
  | "graphemeclusterbreak" => graphemeNames
  | "wb" => wordNames
  | "wordbreak" => wordNames
  | "sb" => sentenceNames
  | "sentencebreak" => sentenceNames
  | _ => []

/-- Whether there is such a property. -/
def isKnown : CharProperty → Bool
  | .named name =>
    let name := String.ofList (plain name.toList)
    name ∈ binaryNames || name ∈ categoryNames || name ∈ scriptNames
  | .valued name value =>
    String.ofList (plain value.toList) ∈ valuesOf (String.ofList (plain name.toList))

/-- The property that the text between braces names.  A value is set apart by `!=`, else by a
colon, else by an equals sign. -/
def ofText (s : List Char) : CharProperty :=
  let valued (cut : List Char × List Char) : CharProperty :=
    .valued (String.ofList cut.1) (String.ofList cut.2)
  match Text.cut? ['!', '='] s, Text.cut? [':'] s, Text.cut? ['='] s with
  | some cut, _, _ => valued cut
  | none, some cut, _ => valued cut
  | none, none, some cut => valued cut
  | none, none, none => .named (String.ofList s)

end CharProperty

end AndroidFonts
