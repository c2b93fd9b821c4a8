/-!
# Locales

Each supported language code has a fixed one-byte id, its position in the list of codes counted from 1; the id 0
means no locale, and all locales when reading.

* `Locale.idOf?` / `Locale.codeOf?`.
* `Locale`: a locale that a schema enables, with the ids that are tried in order where it has no text.
-/

namespace NodeStore

/-- A locale enabled in a schema. -/
structure Locale where
  code : String
  id : UInt8
  /-- The ids tried in order when this locale has no value. -/
  fallback : List UInt8
  required : Bool
  deriving DecidableEq, Inhabited

namespace Locale

/-- The id that stands for no locale. -/
def none : UInt8 := 0

/-- The supported codes in the order of their ids, which starts at 1. -/
def codes : List String :=
  ["aa", "ab", "af", "ak", "am", "ar", "as", "az", "be", "bg", "bn", "bo", "bs", "ca", "cs",
   "cy", "da", "de", "el", "en", "eo", "es", "et", "eu", "fa", "fi", "fo", "fr", "ga", "gd",
   "gl", "gu", "he", "hi", "hr", "hu", "hy", "id", "is", "it", "ja", "ka", "kk", "km", "kn",
   "ko", "ku", "ky", "la", "lb", "lo", "lt", "lv", "mi", "mk", "ml", "mn", "mr", "ms", "mt",
   "my", "nb", "ne", "nl", "nn", "no", "pa", "pl", "ps", "pt", "ro", "ru", "sa", "sk", "sl",
   "so", "sq", "sr", "sv", "sw", "ta", "te", "tg", "th", "tk", "tl", "tr", "uk", "ur", "uz",
   "vi", "xh", "yi", "yo", "zh", "zu"]

/-- The id of a code. -/
def idOf? (code : String) : Option UInt8 :=
  (codes.findIdx? (· = code)).map fun i => UInt8.ofNat (i + 1)

/-- The code of an id. -/
def codeOf? (id : UInt8) : Option String :=
  if id = none then .none else codes[id.toNat - 1]?

end Locale

end NodeStore
