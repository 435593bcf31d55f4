import CodeGraph.Json.Record
import CodeGraph.Settings.Basic

/-!
# The JSON of settings

Settings are records. A limit or a port that is missing has its default, and the two texts of the
settings may be null.
-/

namespace CodeGraph

namespace Limits

/-- Limits are a record. -/
def codec : Codec Limits where
  encode l :=
    .object [("max_source_bytes", .nat l.maxSourceBytes), ("max_tree_depth", .nat l.maxTreeDepth)]
  decode d :=
    match d.slots? ["max_source_bytes", "max_tree_depth"] with
    | some [bytes, depth] => do
      let bytes ← bytes.withDefault ({} : Limits).maxSourceBytes Document.count?
      let depth ← depth.withDefault ({} : Limits).maxTreeDepth Document.count?
      return ⟨bytes, depth⟩
    | _ => none

end Limits

namespace ServerSettings

/-- A port number. -/
def port? (d : Document) : Option UInt16 := (d.natural? UInt16.size).map UInt16.ofNat

/-- The settings of the server are a record. -/
def codec : Codec ServerSettings where
  encode s := .object [("port", .nat s.port.toNat)]
  decode d :=
    match d.slots? ["port"] with
    | some [port] => (port.withDefault ({} : ServerSettings).port port?).map ServerSettings.mk
    | _ => none

end ServerSettings

namespace Settings

/-- A text that may be missing. -/
def textJson (text : Option String) : Json := .ofOption (text.map .string)

/-- Settings are a record. -/
def codec : Codec Settings where
  encode s :=
    .object [("cache", textJson s.cache), ("default_language", textJson s.defaultLanguage),
      ("limits", Limits.codec.encode s.limits), ("server", ServerSettings.codec.encode s.server)]
  decode d :=
    match d.slots? ["cache", "default_language", "limits", "server"] with
    | some [cache, language, limits, server] => do
      let cache ← cache.optional Document.text?
      let language ← language.optional Document.text?
      let limits ← limits.withDefault {} Limits.codec.decode
      let server ← server.withDefault {} ServerSettings.codec.decode
      return ⟨cache, language, limits, server⟩
    | _ => none

end Settings

end CodeGraph
