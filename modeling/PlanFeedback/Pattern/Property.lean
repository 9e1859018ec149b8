/-!
The names of the properties of Unicode characters that a pattern may ask for. Case, blanks, hyphens,
underscores and a leading `is` do not count in a name.
-/
namespace PlanFeedback.Pattern

/-- The general categories, and three sets that go beyond them. -/
def categoryNames : List String := (
  "any ascii assigned c casedletter cc cf closepunctuation cn cntrl co combiningmark " ++
  "connectorpunctuation control currencysymbol dashpunctuation decimalnumber digit enclosingmark " ++
  "finalpunctuation format initialpunctuation l lc letter letternumber lineseparator ll lm lo " ++
  "lowercaseletter lt lu m mark mathsymbol mc me mn modifierletter modifiersymbol n nd nl no " ++
  "nonspacingmark number openpunctuation other otherletter othernumber otherpunctuation " ++
  "othersymbol p paragraphseparator pc pd pe pf pi po privateuse ps punct punctuation s sc " ++
  "separator sk sm so spaceseparator spacingmark symbol titlecaseletter unassigned " ++
  "uppercaseletter z zl zp zs").splitOn " "

/-- The scripts, by name and by code. -/
def scriptNames : List String := (
  "adlam adlm aghb ahom anatolianhieroglyphs arab arabic armenian armi armn avestan avst bali " ++
  "balinese bamu bamum bass bassavah batak batk beng bengali bhaiksuki bhks bopo bopomofo brah " ++
  "brahmi brai braille bugi buginese buhd buhid cakm canadianaboriginal cans cari carian " ++
  "caucasianalbanian chakma cham cher cherokee chorasmian chrs common copt coptic cpmn cprt " ++
  "cuneiform cypriot cyprominoan cyrillic cyrl deseret deva devanagari diak divesakuru dogr dogra " ++
  "dsrt dupl duployan egyp egyptianhieroglyphs elba elbasan elym elymaic ethi ethiopic gara garay " ++
  "geor georgian glag glagolitic gong gonm goth gothic gran grantha greek grek gujarati gujr gukh " ++
  "gunjalagondi gurmukhi guru gurungkhema han hang hangul hani hanifirohingya hano hanunoo hatr " ++
  "hatran hebr hebrew hira hiragana hluw hmng hmnp hung imperialaramaic inherited " ++
  "inscriptionalpahlavi inscriptionalparthian ital java javanese kaithi kali kana kannada " ++
  "katakana kawi kayahli khar kharoshthi khitansmallscript khmer khmr khoj khojki khudawadi " ++
  "kiratrai kits knda krai kthi lana lao laoo latin latn lepc lepcha limb limbu lina linb lineara " ++
  "linearb lisu lyci lycian lydi lydian mahajani mahj maka makasar malayalam mand mandaic mani " ++
  "manichaean marc marchen masaramgondi medefaidrin medf meeteimayek mend mendekikakui merc mero " ++
  "meroiticcursive meroitichieroglyphs miao mlym modi mong mongolian mro mroo mtei mult multani " ++
  "myanmar mymr nabataean nagm nagmundari nand nandinagari narb nbat newa newtailue nko nkoo nshu " ++
  "nushu nyiakengpuachuehmong ogam ogham olchiki olck oldhungarian olditalic oldnortharabian " ++
  "oldpermic oldpersian oldsogdian oldsoutharabian oldturkic olduyghur olonal onao oriya orkh " ++
  "orya osage osge osma osmanya ougr pahawhhmong palm palmyrene pauc paucinhau perm phag phagspa " ++
  "phli phlp phnx phoenician plrd prti psalterpahlavi qaac qaai rejang rjng rohg runic runr " ++
  "samaritan samr sarb saur saurashtra sgnw sharada shavian shaw shrd sidd siddham signwriting " ++
  "sind sinh sinhala sogd sogdian sogo sora sorasompeng soyo soyombo sund sundanese sunu sunuwar " ++
  "sylo sylotinagri syrc syriac tagalog tagb tagbanwa taile taitham taiviet takr takri tale talu " ++
  "tamil taml tang tangsa tangut tavt telu telugu tfng tglg thaa thaana thai tibetan tibt " ++
  "tifinagh tirh tirhuta tnsa todhri todr toto tulutigalari tutg ugar ugaritic vai vaii vith " ++
  "vithkuqi wancho wara warangciti wcho xpeo xsux yezi yezidi yi yiii zanabazarsquare zanb zinh " ++
  "zyyy").splitOn " "

def propertyNames : List String := (
  "ahex alpha alphabetic asciihexdigit bidic bidicontrol cased caseignorable " ++
  "changeswhencasefolded changeswhencasemapped changeswhenlowercased changeswhentitlecased " ++
  "changeswhenuppercased ci cwcf cwcm cwl cwt cwu dash defaultignorablecodepoint dep deprecated " ++
  "di dia diacritic ebase ecomp emod emoji emojicomponent emojimodifier emojimodifierbase " ++
  "emojipresentation epres ext extendedpictographic extender extpict graphemebase graphemeextend " ++
  "graphemelink grbase grext hex hexdigit hyphen idc idcompatmathcontinue idcompatmathstart " ++
  "idcontinue ideo ideographic ids idsb idsbinaryoperator idst idstart idstrinaryoperator idsu " ++
  "idsunaryoperator joinc joincontrol loe logicalorderexception lower lowercase math mcm " ++
  "modifiercombiningmark nchar noncharactercodepoint otheralphabetic " ++
  "otherdefaultignorablecodepoint othergraphemeextend otheridcontinue otheridstart otherlowercase " ++
  "othermath otheruppercase patsyn patternsyntax patternwhitespace patws pcm " ++
  "prependedconcatenationmark qmark quotationmark radical regionalindicator ri sd " ++
  "sentenceterminal softdotted space sterm term terminalpunctuation uideo unifiedideograph upper " ++
  "uppercase variationselector vs whitespace wspace xidc xidcontinue xids xidstart").splitOn " "

/-- A name without what does not count in it. -/
def plainName (name : List Char) : String :=
  let isPart (c : Char) : Bool := c.toNat < 0x80 && c != ' ' && c != '_' && c != '-'
  let lower := name.map Char.toLower
  let plain (s : List Char) : String := String.ofList (s.filter isPart)
  if lower.take 2 = ['i', 's'] then
    let rest := plain (lower.drop 2)
    if rest = "c" then "isc" else rest
  else plain lower

def valueNames (property : String) : List String :=
  if property = "gc" ∨ property = "generalcategory" then categoryNames
  else if ["sc", "script", "scx", "scriptextensions"].contains property then scriptNames
  else []

/-- A name of characters: a property or one of its values, the two with a sign between them. -/
def isPropertyName (name : List Char) : Bool :=
  let property := name.takeWhile fun c => c != '=' && c != ':'
  match name.drop property.length with
  | [] =>
    let plain := plainName name
    categoryNames.contains plain || scriptNames.contains plain || propertyNames.contains plain
  | _ :: value => (valueNames (plainName property)).contains (plainName value)

end PlanFeedback.Pattern
