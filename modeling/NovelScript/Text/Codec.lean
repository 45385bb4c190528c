import NovelScript.Fault
import NovelScript.Text.Codec.CodePage
import NovelScript.Text.Codec.Unicode

/-!
# Codecs

A codec turns text into bytes and bytes into text, or says why it cannot. No codec has bytes for
half of a pair. Codecs are found by name; an unknown name gives a codec that fails on everything but
the reading of no bytes at all, and what can be no name gives one that always fails.
-/

namespace NovelScript

/-- How texts are stored. -/
structure Codec where
  encode : String → Except Fault Bytes
  decode : Bytes → Except Fault String

namespace Codec

/-- The bytes of a wording. -/
def encodeWording (codec : Codec) (w : Wording) : Except Fault Bytes :=
  match w.string? with
  | some s => codec.encode s
  | none => do
    let _ ← codec.encode ""
    .error Cause.unencodable

def ofPartial (encode? : List Char → Option Bytes) (decode? : Bytes → Option (List Char)) :
    Codec where
  encode s := orFault (encode? s.toList) Cause.unencodable
  decode bytes := (orFault (decode? bytes) Cause.undecodable).map String.ofList

def ofPage (page : Text.CodePage) : Codec := ofPartial page.encode? page.decode?

def utf8 : Codec := ofPartial (some ∘ Text.utf8Encode) Text.utf8Decode?

def utf16 : Codec := ofPartial (some ∘ Text.utf16Encode) Text.utf16Decode?

def ascii : Codec := ofPage .ascii

def latin1 : Codec := ofPage .latin1

def japanese : Codec := ofPage .japanese

def chinese : Codec := ofPage .chinese

/-- The codec of a name that nobody knows. Reading nothing needs no codec. -/
def unknown (name : String) : Codec where
  encode _ := .error (Cause.unknownCodec name)
  decode bytes := if bytes.isEmpty then .ok "" else .error (Cause.unknownCodec name)

/-- A codec that always fails. -/
def refused (cause : Cause) : Codec where
  encode _ := .error cause
  decode _ := .error cause

def names : List (List String × Codec) :=
  [(["utf_8", "utf8", "u8", "utf", "utf8_ucs2", "utf8_ucs4", "cp65001"], utf8),
   (["ascii", "us_ascii", "us", "646", "csascii", "cp367", "ibm367", "iso646_us", "iso_ir_6",
     "ansi_x3.4_1968", "ansi_x3_4_1968", "ansi_x3.4_1986", "iso_646.irv_1991"], ascii),
   (["latin_1", "latin1", "latin", "l1", "8859", "iso8859", "iso8859_1", "iso_8859_1",
     "iso_8859_1_1987", "iso_ir_100", "csisolatin1", "cp819", "ibm819"], latin1),
   (["utf_16_le", "utf_16le", "unicodelittleunmarked"], utf16),
   (["gbk", "936", "cp936", "ms936"], chinese),
   (["cp932", "932", "ms932", "mskanji", "ms_kanji"], japanese)]

def isNameChar (c : Char) : Bool := c.isAlphanum || c == '.'

def nameWords : List Char → List Char
  | [] => []
  | [c] => if isNameChar c then [c.toLower] else []
  | c :: next :: rest =>
    let words := nameWords (next :: rest)
    if isNameChar c then
      c.toLower :: if isNameChar next || words.isEmpty then words else '_' :: words
    else words

def normalName (name : String) : String := String.ofList (nameWords name.toList)

/-- The codec of a name. -/
def ofName (name : String) : Codec :=
  if name.toList.contains '\x00' then refused (Cause.zeroInName name)
  else
    match names.find? fun (spellings, _) => spellings.contains (normalName name) with
    | some (_, codec) => codec
    | none => unknown name

def ofWording (name : Wording) : Codec :=
  match name.string? with
  | some s => ofName s
  | none => refused Cause.unencodable

end Codec

end NovelScript
