import NovelScript.Text.Mapping

/-!
# Decompositions
-/

namespace NovelScript.Text

/-- What the characters of names are made of: plain letters in the place of wide, narrow, joined,
styled and otherwise varied ones. Characters that two others make together are left to
`compositions`, and Korean syllables follow a rule of their own. -/
def decompositions : Mapping := Mapping.ofLines
  ["AA=a A=μ 4=o 77:49,4A|69,6A B:4C,B7|6C,B7 8:2BC,6E 35=s 44:44,5A,30C|44,7A,30C|64,7A,30C|4C,4A",
   "0:4C,6A|6C,6A|4E,4A|4E,6A|6E,6A 24:44,5A|44,7A|64,7A BC=hɦjrɹɻʁwy 27=ɣlsxʕ 5B+1:300 1:313",
   "0:308,301 2F=ʹ 12=· 48=βθΥ 2=φπ 19=κρς 1=Θε 3=Σ 18D:565,582 ED:627,674|648,674|6C7,674|64A,674",
   "2DF:915,93C|916,93C|917,93C|91C,93C|921,93C|922,93C|92B,93C|92F,93C 7C:9A1,9BC|9A2,9BC",
   "1:9AF,9BC 53:A32,A3C 2:A38,A3C 22:A16,A3C|A17,A3C|A1C,A3C 2:A2B,A3C FD:B21,B3C|B22,B3C",
   "2D5:E4D,E32 7F:ECD,EB2 28:EAB,E99|EAB,EA1 65:F42,FB7 9:F4C,FB7 4:F51,FB7 4:F56,FB7 4:F5B,FB7",
   "C:F40,FB5 9:F71,F72 1:F71,F74|FB2,F80|FB2,F71,F80|FB3,F80|FB3,F71,F80 7:F71,F80 11:F92,FB7",
   "9:F9C,FB7 4:FA1,FB7 4:FA6,FB7 4:FAB,FB7 C:F90,FB5 142=ნ C2F=AÆB 1=DEƎ 0+7:47 1=OȢPRTUWaɐɑᴂbdeə",
   "0=ɛɜg 1=kmŋoɔᴖᴗptuᴝɯvᴥβγδφχiruvβγρφχ D=н 22=ɒcɕðɜfɟɡɥɨɩɪᵻʝɭᶅʟɱɰɲɳɴɵɸʂʃƫʉʊᴜʋʌzʐʑʒθ DA:61,2BE",
   "D6:3B1,301 1:3B5,301 1:3B7,301 1:3B9,301 1:3BF,301 1:3C5,301 1:3C9,301 3D:391,301 2=ι",
   "A:395,301 1:397,301 7:3B9,308,301 7:399,301 7:3C5,308,301 7:3A5,301 D:39F,301 1:3A9,301 75=i",
   "D=n 10=aeoxəhklmnpst 65=C 4=Ɛ 2=gHHHhħIILl 1=N 3=PQRRR 6=Z 1=Ω 1=Z 1:4B|41,30A 0=BC 1=eEF",
   "1=Moאבגדi 2=πγΓΠ 5=Ddeij 16:49|49,49|49,49,49|49,56|56|56,49|56,49,49|56,49,49,49|49,58|58",
   "0:58,49|58,49,49 0=LCDMi 0:69,69|69,69,69|69,76|76|76,69|76,69,69|76,69,69,69|69,78|78|78,69",
   "0:78,69,69 0=lcdm AFC=jV F1=ⵡ 2C8=十卄卅 64:3088,308A 5F:30B3,30C8 31+1:1100 0:11AA|1102 0+1:11AC",
   "0+2:1103 0+5:11B0 0:111A 0+2:1106 0:1121 0+9:1109 0+14:1161 0:1160 0+1:1114 0+1:11C7 0:11CC",
   "0:11CE|11D3|11D7|11D9|111C|11DD|11DF|111D|111E|1120|1122|1123|1127|1129 0+4:112B 0:1132|1136",
   "0:1140|1147|114C 0+1:11F1 0+2:1157 0+1:1184 0:1188|1191|1192|1194|119E|11A1 750D=ъь D2=ꝯ",
   "81=CFQ 3=Ħœ 362=ꜧꬷɫꭒ 9=ʍ 4D96=豈更車賈滑串句龜龜契金喇奈懶癩羅蘿螺裸邏樂洛烙珞落酪駱亂卵欄爛蘭鸞嵐濫藍襤拉臘蠟廊朗浪狼郎來冷勞擄櫓爐盧老蘆虜路露魯鷺碌祿綠菉錄",
   "0=鹿論壟弄籠聾牢磊賂雷壘屢樓淚漏累縷陋勒肋凜凌稜綾菱陵讀拏樂諾丹寧怒率異北磻便復不泌數索參塞省葉說殺辰沈拾若掠略亮兩凉梁糧良諒量勵呂女廬旅濾礪閭驪麗黎力曆歷轢年憐戀撚漣煉璉秊練聯輦蓮連鍊",
   "0=列劣咽烈裂說廉念捻殮簾獵令囹寧嶺怜玲瑩羚聆鈴零靈領例禮醴隸惡了僚寮尿料樂燎療蓼遼龍暈阮劉杻柳流溜琉留硫紐類六戮陸倫崙淪輪律慄栗率隆利吏履易李梨泥理痢罹裏裡里離匿溺吝燐璘藺隣鱗麟林淋臨立",
   "0=笠粒狀炙識什茶刺切度拓糖宅洞暴輻行降見廓兀嗀 2=塚 1=晴 2=凞猪益礼神祥福靖精羽 1=蘒 1=諸 2=逸都 3=飯飼館鶴郞隷侮僧免勉勤卑喝嘆器塀墨層屮悔慨憎懲敏既暑梅海渚漢煮爫琢",
   "0=碑社祉祈祐祖祝禍禎穀突節練縉繁署者臭艹艹著褐視謁謹賓贈辶逸難響頻恵𤋮舘 2=並况全侀充冀勇勺喝啕喙嗢塚墳奄奔婢嬨廒廙彩徭惘慎愈憎慠懲戴揄搜摒敖晴朗望杖歹殺流滛滋漢瀞煮瞧爵犯猪瑱甆画瘝瘟",
   "0=益盛直睊着磌窱節类絛練缾者荒華蝹襁覆視調諸請謁諾諭謹變贈輸遲醙鉶陼難靖韛響頋頻鬒龜𢡊𢡄𣏕㮝䀘䀹𥉉𥳐𧻓齃龎 26:66,66|66,69|66,6C|66,66,69|66,66,6C",
   "0:73,74|73,74 C:574,576|574,565|574,56B|57E,576|574,56D 5:5D9,5B4 1:5F2,5B7 0=עאדהכלםרת",
   "1:5E9,5C1|5E9,5C2|5E9,5BC,5C1|5E9,5BC,5C2|5D0,5B7|5D0,5B8|5D0,5BC|5D1,5BC|5D2,5BC|5D3,5BC",
   "0:5D4,5BC|5D5,5BC|5D6,5BC 1:5D8,5BC|5D9,5BC|5DA,5BC|5DB,5BC|5DC,5BC 1:5DE,5BC 1:5E0,5BC",
   "0:5E1,5BC 1:5E3,5BC|5E4,5BC 1:5E6,5BC|5E7,5BC|5E8,5BC|5E9,5BC|5EA,5BC|5D5,5B9|5D1,5BF|5DB,5BF",
   "0:5E4,5BF|5D0,5DC 0=ٱٱٻٻٻٻپپپپڀڀڀڀٺٺٺٺٿٿٿٿٹٹٹٹڤڤڤڤڦڦڦڦڄڄڄڄڃڃڃڃچچچچڇڇڇڇڍڍڌڌڎڎڈڈژژڑڑککککگگگگڳڳڳڳ",
   "0=ڱڱڱڱںںڻڻڻڻ 0:6D5,654|6D5,654 0=ہہہہھھھھےے 0:6D2,654|6D2,654 21=ڭڭڭڭۇۇۆۆۈۈ 0:6C7,674 0=ۋۋۅۅۉۉ",
   "0=ېېېېىى 0:64A,654,627|64A,654,627|64A,654,6D5|64A,654,6D5|64A,654,648|64A,654,648|64A,654,6C7",
   "0:64A,654,6C7|64A,654,6C6|64A,654,6C6|64A,654,6C8|64A,654,6C8|64A,654,6D0|64A,654,6D0",
   "0:64A,654,6D0|64A,654,649|64A,654,649|64A,654,649 0=یییی 0:64A,654,62C|64A,654,62D|64A,654,645",
   "0:64A,654,649|64A,654,64A|628,62C|628,62D|628,62E|628,645|628,649|628,64A|62A,62C|62A,62D",
   "0:62A,62E|62A,645|62A,649|62A,64A|62B,62C|62B,645|62B,649|62B,64A|62C,62D|62C,645|62D,62C",
   "0:62D,645|62E,62C|62E,62D|62E,645|633,62C|633,62D|633,62E|633,645|635,62D|635,645|636,62C",
   "0:636,62D|636,62E|636,645|637,62D|637,645|638,645|639,62C|639,645|63A,62C|63A,645|641,62C",
   "0:641,62D|641,62E|641,645|641,649|641,64A|642,62D|642,645|642,649|642,64A|643,627|643,62C",
   "0:643,62D|643,62E|643,644|643,645|643,649|643,64A|644,62C|644,62D|644,62E|644,645|644,649",
   "0:644,64A|645,62C|645,62D|645,62E|645,645|645,649|645,64A|646,62C|646,62D|646,62E|646,645",
   "0:646,649|646,64A|647,62C|647,645|647,649|647,64A|64A,62C|64A,62D|64A,62E|64A,645|64A,649",
   "0:64A,64A|630,670|631,670|649,670 6:64A,654,631|64A,654,632|64A,654,645|64A,654,646",
   "0:64A,654,649|64A,654,64A|628,631|628,632|628,645|628,646|628,649|628,64A|62A,631|62A,632",
   "0:62A,645|62A,646|62A,649|62A,64A|62B,631|62B,632|62B,645|62B,646|62B,649|62B,64A|641,649",
   "0:641,64A|642,649|642,64A|643,627|643,644|643,645|643,649|643,64A|644,645|644,649|644,64A",
   "0:645,627|645,645|646,631|646,632|646,645|646,646|646,649|646,64A|649,670|64A,631|64A,632",
   "0:64A,645|64A,646|64A,649|64A,64A|64A,654,62C|64A,654,62D|64A,654,62E|64A,654,645|64A,654,647",
   "0:628,62C|628,62D|628,62E|628,645|628,647|62A,62C|62A,62D|62A,62E|62A,645|62A,647|62B,645",
   "0:62C,62D|62C,645|62D,62C|62D,645|62E,62C|62E,645|633,62C|633,62D|633,62E|633,645|635,62D",
   "0:635,62E|635,645|636,62C|636,62D|636,62E|636,645|637,62D|638,645|639,62C|639,645|63A,62C",
   "0:63A,645|641,62C|641,62D|641,62E|641,645|642,62D|642,645|643,62C|643,62D|643,62E|643,644",
   "0:643,645|644,62C|644,62D|644,62E|644,645|644,647|645,62C|645,62D|645,62E|645,645|646,62C",
   "0:646,62D|646,62E|646,645|646,647|647,62C|647,645|647,670|64A,62C|64A,62D|64A,62E|64A,645",
   "0:64A,647|64A,654,645|64A,654,647|628,645|628,647|62A,645|62A,647|62B,645|62B,647|633,645",
   "0:633,647|634,645|634,647|643,644|643,645|644,645|646,645|646,647|64A,645|64A,647|640,64E,651",
   "0:640,64F,651|640,650,651|637,649|637,64A|639,649|639,64A|63A,649|63A,64A|633,649|633,64A",
   "0:634,649|634,64A|62D,649|62D,64A|62C,649|62C,64A|62E,649|62E,64A|635,649|635,64A|636,649",
   "0:636,64A|634,62C|634,62D|634,62E|634,645|634,631|633,631|635,631|636,631|637,649|637,64A",
   "0:639,649|639,64A|63A,649|63A,64A|633,649|633,64A|634,649|634,64A|62D,649|62D,64A|62C,649",
   "0:62C,64A|62E,649|62E,64A|635,649|635,64A|636,649|636,64A|634,62C|634,62D|634,62E|634,645",
   "0:634,631|633,631|635,631|636,631|634,62C|634,62D|634,62E|634,645|633,647|634,647|637,645",
   "0:633,62C|633,62D|633,62E|634,62C|634,62D|634,62E|637,645|638,645|627,64B|627,64B",
   "12:62A,62C,645|62A,62D,62C|62A,62D,62C|62A,62D,645|62A,62E,645|62A,645,62C|62A,645,62D",
   "0:62A,645,62E|62C,645,62D|62C,645,62D|62D,645,64A|62D,645,649|633,62D,62C|633,62C,62D",
   "0:633,62C,649|633,645,62D|633,645,62D|633,645,62C|633,645,645|633,645,645|635,62D,62D",
   "0:635,62D,62D|635,645,645|634,62D,645|634,62D,645|634,62C,64A|634,645,62E|634,645,62E",
   "0:634,645,645|634,645,645|636,62D,649|636,62E,645|636,62E,645|637,645,62D|637,645,62D",
   "0:637,645,645|637,645,64A|639,62C,645|639,645,645|639,645,645|639,645,649|63A,645,645",
   "0:63A,645,64A|63A,645,649|641,62E,645|641,62E,645|642,645,62D|642,645,645|644,62D,645",
   "0:644,62D,64A|644,62D,649|644,62C,62C|644,62C,62C|644,62E,645|644,62E,645|644,645,62D",
   "0:644,645,62D|645,62D,62C|645,62D,645|645,62D,64A|645,62C,62D|645,62C,645|645,62E,62C",
   "0:645,62E,645 2:645,62C,62E|647,645,62C|647,645,645|646,62D,645|646,62D,649|646,62C,645",
   "0:646,62C,645|646,62C,649|646,645,64A|646,645,649|64A,645,645|64A,645,645|628,62E,64A",
   "0:62A,62C,64A|62A,62C,649|62A,62E,64A|62A,62E,649|62A,645,64A|62A,645,649|62C,645,64A",
   "0:62C,62D,649|62C,645,649|633,62E,649|635,62D,64A|634,62D,64A|636,62D,64A|644,62C,64A",
   "0:644,645,64A|64A,62D,64A|64A,62C,64A|64A,645,64A|645,645,64A|642,645,64A|646,62D,64A",
   "0:642,645,62D|644,62D,645|639,645,64A|643,645,64A|646,62C,62D|645,62E,64A|644,62C,645",
   "0:643,645,645|644,62C,645|646,62C,62D|62C,62D,64A|62D,62C,64A|645,62C,64A|641,645,64A",
   "0:628,62D,64A|643,645,645|639,62C,645|635,645,645|633,62E,64A|646,62C,64A 28:635,644,6D2",
   "0:642,644,6D2|627,644,644,647|627,643,628,631|645,62D,645,62F|635,644,639,645|631,633,648,644",
   "0:639,644,64A,647|648,633,644,645|635,644,649 39=__ 18=___ 21:640,64B 5:640,64E 1:640,64F",
   "1:640,650 1:640,651 1:640,652|621|627,653|627,653|627,654|627,654|648,654|648,654|627,655",
   "0:627,655|64A,654|64A,654|64A,654|64A,654 0=ااببببةةتتتتثثثثججججححححخخخخددذذررززسسسسششششصصصصضض",
   "0=ضضططططظظظظععععغغغغففففققققككككللللممممننننههههووىىيييي 0:644,627,653|644,627,653|644,627,654",
   "0:644,627,654|644,627,655|644,627,655|644,627|644,627 13+9:30 7+19:41 4=_ 1+19:61 B=ヲァィゥェォャュョッ",
   "0=ーアイウエオカキクケコサシスセソタチツテト 0+5:30CA 0=ヒフヘホ 0+4:30DE 0=ヤユ 0+5:30E8 0=ワン 0+1:3099 0:1160|1100|1101",
   "0:11AA|1102 0+1:11AC 0+2:1103 0+5:11B0 0:111A 0+2:1106 0:1121 0+9:1109 3+5:1161 2+5:1167",
   "2+5:116D 2+2:1173 7A4=ːˑæʙɓ 1=ʣꭦʥʤɖɗᶑɘɞʩɤɢɠʛħʜɧʄʪʫɬ𝼄ꞎɮ𝼅ʎ𝼆øɶɷqɺ𝼈ɽɾʀʨʦꭧʧʈⱱ 1=ʏʡʢʘǀǁǂ𝼊𝼞",
   "CC45+19:41 0+19:61 0+19:41 0+6:61 1+11:69 0+19:41 0+19:61 0=A 1=CD 2=G 2=JK 2+3:4E 1+7:53",
   "0+3:61 1=f 1+6:68 1+A:70 0+19:41 0+19:61 0=AB 1+3:44 2+7:4A 1+6:53 1+19:61 0=AB 1+3:44 1+4:49",
   "1=O 3+6:53 1+19:61 0+19:41 0+19:61 0+19:41 0+19:61 0+19:41 0+19:61 0+19:41 0+19:61 0+19:41",
   "0+19:61 0+19:41 0+19:61 0=ıȷ 2+10:391 0=Θ 0+6:3A3 1+18:3B1 1=εθκφρπ 0+10:391 0=Θ 0+6:3A3",
   "1+18:3B1 1=εθκφρπ 0+10:391 0=Θ 0+6:3A3 1+18:3B1 1=εθκφρπ 0+10:391 0=Θ 0+6:3A3 1+18:3B1 1=εθκφρ",
   "0=π 0+10:391 0=Θ 0+6:3A3 1+18:3B1 1=εθκφρπϜϝ 2+9:30 0+9:30 0+9:30 0+9:30 0+9:30 1600=ابجد",
   "1=وزحطيكلمنسعفصقرشتثخذضظغٮںڡٯ 1=بج 1=ه 2=ح 1=يكلمنسعفصق 1=شتثخ 1=ض 1=غ 6=ج 4=ح 1=ي 1=ل 1=نسع",
   "1=صق 1=ش 2=خ 1=ض 1=غ 1=ں 1=ٯ 1=بج 1=ه 2=حطيك 1=منسعفصق 1=شتثخ 1=ضظغٮ 1=ڡ 1=ابجدهوزحطي 1=لمنسعف",
   "0=صقرشتثخذضظغ 5=بجد 1=وزحطي 1=لمنسعفصقرشتثخذضظغ D34+9:30 FC06=丽丸乁𠄢你侮侻倂偺備僧像㒞𠘺免兔兤具𠔜㒹內再𠕋冗冤仌冬况𩇟凵刃㓟",
   "0=刻剆割剷㔕勇勉勤勺包匆北卉卑博即卽卿卿卿𠨬灰及叟𠭣叫叱吆咞吸呈周咢哶唐啓啣善善喙喫喳嗂圖嘆圗噑噴切壮城埴堍型堲報墬𡓤売壷夆多夢奢𡚨𡛪姬娛娧姘婦㛮㛼嬈嬾嬾𡧈寃寘寧寳𡬘寿将当尢㞁屠屮峀岍𡷤",
   "0=嵃𡷦嵮嵫嵼巡巢㠯巽帨帽幩㡢𢆃㡼庰庳庶廊𪎒廾𢌱𢌱舁弢弢㣇𣊸𦇚形彫㣣徚忍志忹悁㤺㤜悔𢛔惇慈慌慎慌慺憎憲憤憯懞懲懶成戛扝抱拔捐𢬌挽拼捨掃揤𢯱搢揅掩㨮摩摾撝摷㩬敏敬𣀊旣書晉㬙暑㬈㫤冒冕最暜肭䏙",
   "0=朗望朡杞杓𣏃㭉柺枅桒梅𣑭梎栟椔㮝楂榣槪檨𣚣櫛㰘次𣢧歔㱎歲殟殺殻𣪍𡴋𣫺汎𣲼沿泍汧洖派海流浩浸涅𣴞洴港湮㴳滋滇𣻑淹潮𣽞𣾎濆瀹瀞瀛㶖灊災灷炭𠔥煅𤉣熜𤎫爨爵牐𤘈犀犕𤜵𤠔獺王㺬玥㺸㺸瑇瑜瑱璅瓊㼛",
   "0=甤𤰶甾𤲒異𢆟瘐𤾡𤾸𥁄㿼䀈直𥃳𥃲𥄙𥄳眞真真睊䀹瞋䁆䂖𥐝硎碌磌䃣𥘦祖𥚚𥛅福秫䄯穀穊穏𥥼𥪧𥪧竮䈂𥮫篆築䈧𥲀糒䊠糨糣紀𥾆絣䌁緇縂繅䌴𦈨𦉇䍙𦋙罺𦌾羕翺者𦓚𦔣聠𦖨聰𣍟䏕育脃䐋脾媵𦞧𦞵𣎓𣎜舁舄辞䑫芑",
   "0=芋芝劳花芳芽苦𦬼若茝荣莭茣莽菧著荓菊菌菜𦰶𦵫𦳕䔫蓱蓳蔖𧏊蕤𦼬䕝䕡𦾱𧃒䕫虐虜虧虩蚩蚈蜎蛢蝹蜨蝫螆䗗蟡蠁䗹衠衣𧙧裗裞䘵裺㒻𧢮𧥦䚾䛇誠諭變豕𧲨貫賁贛起𧼯𠠄跋趼跰𠣞軔輸𨗒𨗭邔郱鄑𨜮鄛鈸鋗鋘鉼鏹",
   "0=鐕𨯺開䦕閷𨵷䧦雃嶲霣𩅅𩈚䩮䩶韠𩐊䪲𩒖頋頋頩𩖶飢䬳餩馧駂駾䯎𩬰鬒鱀鳽䳎䳭鵧𪃎䳸𪄅𪈎𪊑麻䵖黹黾鼅鼏鼖鼻𪘀"]

end NovelScript.Text
