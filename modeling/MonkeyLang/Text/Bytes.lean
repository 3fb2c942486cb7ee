/-!
# Text as bytes

Text is exchanged as UTF-8. Not every byte sequence is the encoding of a text.
-/

namespace MonkeyLang

/-- The UTF-8 encoding of a text. -/
def utf8 (text : String) : List UInt8 :=
  text.toUTF8.data.toList

/-- The text that the bytes encode in UTF-8, if they encode one. -/
def ofUtf8? (bytes : List UInt8) : Option String :=
  String.fromUTF8? ⟨bytes.toArray⟩

end MonkeyLang
