import NovelScript.Text.Ranges

/-!
# Compositions
-/

namespace NovelScript.Text

/-- A character that two others make together, a letter and a mark as a rule. -/
structure Composition where
  letter : Nat
  mark : Nat
  whole : Nat

namespace Composition

/-- The compositions with a mark, from letters that are each followed by what they make with it. -/
def withMark (mark : Nat) : List Char → List Composition
  | letter :: whole :: rest => ⟨letter.toNat, mark, whole.toNat⟩ :: withMark mark rest
  | _ => []

/-- The compositions that a word stands for: `308:AÄoö` are two of one mark. -/
def ofWord (word : List Char) : List Composition :=
  match partsAt ':' word with
  | [mark, letters] => withMark (hexNumber mark) letters
  | _ => []

def ofLines (lines : List String) : List Composition :=
  lines.flatMap fun line => (partsAt ' ' line.toList).flatMap ofWord

end Composition

def compositions : List Composition := Composition.ofLines
  ["300:AÀEÈIÌOÒUÙaàeèiìoòuùÜǛüǜNǸnǹЕЀИЍеѐиѝĒḔēḕŌṐōṑWẀwẁÂẦâầĂẰăằÊỀêềÔỒôồƠỜơờƯỪưừYỲyỳἀἂἁἃἈἊἉἋἐἒἑἓἘἚ",
   "300:ἙἛἠἢἡἣἨἪἩἫἰἲἱἳἸἺἹἻὀὂὁὃὈὊὉὋὐὒὑὓὙὛὠὢὡὣὨὪὩὫαὰεὲηὴιὶοὸυὺωὼΑᾺΕῈΗῊϊῒΙῚϋῢΥῪΟῸΩῺ 301:AÁEÉIÍOÓUÚYÝ",
   "301:aáeéiíoóuúyýCĆcćLĹlĺNŃnńRŔrŕSŚsśZŹzźÜǗüǘGǴgǵÅǺåǻÆǼæǽØǾøǿΑΆΕΈΗΉΙΊΟΌΥΎΩΏϊΐαάεέηήιίϋΰοόυύωώϒϓ",
   "301:ГЃКЌгѓкќÇḈçḉĒḖēḗÏḮïḯKḰkḱMḾmḿÕṌõṍŌṒōṓPṔpṕŨṸũṹWẂwẃÂẤâấĂẮăắÊẾêếÔỐôốƠỚơớƯỨưứἀἄἁἅἈἌἉἍἐἔἑἕἘἜἙἝἠἤ",
   "301:ἡἥἨἬἩἭἰἴἱἵἸἼἹἽὀὄὁὅὈὌὉὍὐὔὑὕὙὝὠὤὡὥὨὬὩὭ 302:AÂEÊIÎOÔUÛaâeêiîoôuûCĈcĉGĜgĝHĤhĥJĴjĵSŜsŝWŴwŵYŶyŷ",
   "302:ZẐzẑẠẬạậẸỆẹệỌỘọộ 303:AÃNÑOÕaãnñoõIĨiĩUŨuũVṼvṽÂẪâẫĂẴăẵEẼeẽÊỄêễÔỖôỗƠỠơỡƯỮưữYỸyỹ 304:AĀaāEĒeē",
   "304:IĪiīOŌoōUŪuūÜǕüǖÄǞäǟȦǠȧǡÆǢæǣǪǬǫǭÖȪöȫÕȬõȭȮȰȯȱYȲyȳИӢиӣУӮуӯGḠgḡḶḸḷḹṚṜṛṝαᾱΑᾹιῑΙῙυῡΥῩ",
   "306:AĂaăEĔeĕGĞgğIĬiĭOŎoŏUŬuŭУЎИЙийуўЖӁжӂАӐаӑЕӖеӗȨḜȩḝẠẶạặαᾰΑᾸιῐΙῘυῠΥῨ 307:CĊcċEĖeėGĠgġIİZŻzżAȦ",
   "307:aȧOȮoȯBḂbḃDḊdḋFḞfḟHḢhḣMṀmṁNṄnṅPṖpṗRṘrṙSṠsṡŚṤśṥŠṦšṧṢṨṣṩTṪtṫWẆwẇXẊxẋYẎyẏſẛ 308:AÄEËIÏOÖUÜaä",
   "308:eëiïoöuüyÿYŸΙΪΥΫιϊυϋϒϔЕЁІЇеёіїАӒаӓӘӚәӛЖӜжӝЗӞзӟИӤиӥОӦоӧӨӪөӫЭӬэӭУӰуӱЧӴчӵЫӸыӹHḦhḧÕṎõṏŪṺūṻWẄwẅ",
   "308:XẌxẍtẗ 309:AẢaảÂẨâẩĂẲăẳEẺeẻÊỂêểIỈiỉOỎoỏÔỔôổƠỞơởUỦuủƯỬưửYỶyỷ 30A:AÅaåUŮuůwẘyẙ 30B:OŐoőUŰuű",
   "30B:УӲуӳ 30C:CČcčDĎdďEĚeěLĽlľNŇnňRŘrřSŠsšTŤtťZŽzžAǍaǎIǏiǐOǑoǒUǓuǔÜǙüǚGǦgǧKǨkǩƷǮʒǯjǰHȞhȟ",
   "30F:AȀaȁEȄeȅIȈiȉOȌoȍRȐrȑUȔuȕѴѶѵѷ 311:AȂaȃEȆeȇIȊiȋOȎoȏRȒrȓUȖuȗ 313:αἀΑἈεἐΕἘηἠΗἨιἰΙἸοὀΟὈυὐωὠΩὨρῤ",
   "314:αἁΑἉεἑΕἙηἡΗἩιἱΙἹοὁΟὉυὑΥὙωὡΩὩρῥΡῬ 31B:OƠoơUƯuư 323:BḄbḅDḌdḍHḤhḥKḲkḳLḶlḷMṂmṃNṆnṇRṚrṛSṢsṣTṬtṭ",
   "323:VṾvṿWẈwẉZẒzẓAẠaạEẸeẹIỊiịOỌoọƠỢơợUỤuụƯỰưựYỴyỵ 324:UṲuṳ 325:AḀaḁ 326:SȘsșTȚtț 327:CÇcçGĢgģKĶ",
   "327:kķLĻlļNŅnņRŖrŗSŞsşTŢtţEȨeȩDḐdḑHḨhḩ 328:AĄaąEĘeęIĮiįUŲuųOǪoǫ 32D:DḒdḓEḘeḙLḼlḽNṊnṋTṰtṱUṶuṷ",
   "32E:HḪhḫ 330:EḚeḛIḬiḭUṴuṵ 331:BḆbḇDḎdḏKḴkḵLḺlḻNṈnṉRṞrṟTṮtṯZẔzẕhẖ 342:ἀἆἁἇἈἎἉἏἠἦἡἧἨἮἩἯἰἶἱἷἸἾἹἿ",
   "342:ὐὖὑὗὙὟὠὦὡὧὨὮὩὯαᾶηῆιῖϊῗυῦϋῧωῶ 345:ἀᾀἁᾁἂᾂἃᾃἄᾄἅᾅἆᾆἇᾇἈᾈἉᾉἊᾊἋᾋἌᾌἍᾍἎᾎἏᾏἠᾐἡᾑἢᾒἣᾓἤᾔἥᾕἦᾖἧᾗἨᾘἩᾙἪᾚἫᾛ",
   "345:ἬᾜἭᾝἮᾞἯᾟὠᾠὡᾡὢᾢὣᾣὤᾤὥᾥὦᾦὧᾧὨᾨὩᾩὪᾪὫᾫὬᾬὭᾭὮᾮὯᾯὰᾲαᾳάᾴᾶᾷΑᾼὴῂηῃήῄῆῇΗῌὼῲωῳώῴῶῷΩῼ 653:اآ 654:اأوؤيئەۀ",
   "654:ہۂےۓ 655:اإ 93C:नऩरऱळऴ 9BE:েো 9D7:েৌ B3E:େୋ B56:େୈ B57:େୌ BBE:ெொேோ BD7:ஒஔெௌ C56:ెై CC2:ೆೊ",
   "CD5:ಿೀೆೇೊೋ CD6:ೆೈ D3E:െൊേോ D57:െൌ DCA:ෙේොෝ DCF:ෙො DDF:ෙෞ 102E:ဥဦ 1B35:ᬅᬆᬇᬈᬉᬊᬋᬌᬍᬎᬑᬒᬺᬻᬼᬽᬾᭀᬿᭁᭂᭃ",
   "3099:かがきぎくぐけげこごさざしじすずせぜそぞただちぢつづてでとどはばひびふぶへべほぼうゔゝゞカガキギクグケゲコゴサザシジスズセゼソゾタダチヂツヅテデトドハバヒビフブヘベホボウヴワヷ",
   "3099:ヰヸヱヹヲヺヽヾ 309A:はぱひぴふぷへぺほぽハパヒピフプヘペホポ 110BA:𑂙𑂚𑂛𑂜𑂥𑂫 11127:𑄱𑄮𑄲𑄯 1133E:𑍇𑍋 11357:𑍇𑍌 114B0:𑒹𑒼",
   "114BA:𑒹𑒻 114BD:𑒹𑒾 115AF:𑖸𑖺𑖹𑖻 11930:𑤵𑤸"]

end NovelScript.Text
