import Polargraph.Lib.Splitting
import Polargraph.Rest.Serialize
import Polargraph.Rest.SparqlQuery

/-! Requests of the SPARQL protocol: parameters of URLs and of form bodies. -/

namespace Polargraph

/-- Split a text at the first occurrence of a separator. -/
def splitOnce (separator text : String) : Option (String × String) :=
  (Splitting.once separator.toList text.toList).map fun parts =>
    (String.ofList parts.1, String.ofList parts.2)

/-- The character whose code is a byte. -/
def byteChar (byte : UInt8) : Char := Char.ofNat byte.toNat

/-- The characters of percent-encoded bytes, one for each byte. -/
def percentDecodeBytes : Bytes → List Char
  | byte :: first :: second :: rest =>
    if byte = 37 then
      match SparqlValue.byteFromStrRadix first second with
      | some decoded => byteChar decoded :: percentDecodeBytes rest
      | none => byteChar byte :: percentDecodeBytes (first :: second :: rest)
    else byteChar byte :: percentDecodeBytes (first :: second :: rest)
  -- An escape needs two more bytes.
  | byte :: rest => byteChar byte :: percentDecodeBytes rest
  | [] => []

/-- The text of percent-encoded bytes. -/
def percentDecode (text : String) : String := String.ofList (percentDecodeBytes (utf8 text))

/-- The value of a form field. -/
def urlencodingDecode (text : String) : String := percentDecode (replaceChar '+' " " text)

/-- The fields of a form: its parts between `&`. -/
def formFields (source : String) : List String :=
  (source.toList.splitOn '&').map String.ofList

/-- The names and the undecoded values of the fields that have both. -/
def formPairs (source : String) : List (String × String) :=
  (formFields source).filterMap (splitOnce "=")

/-- The SPARQL query of a form body. -/
def extractQueryFromForm (body : String) : Option String :=
  ((formPairs body).find? fun pair => decide (pair.1 = "query")).map fun pair =>
    urlencodingDecode pair.2

/-- The values of the parameters of a name. -/
def paramsNamed (name : String) (pairs : List (String × String)) : List String :=
  (pairs.filter fun pair => decide (pair.1 = name)).map fun pair => urlencodingDecode pair.2

/-- The dataset that the parameters of some sources name, nothing when no parameter does. -/
def datasetFromParams (sources : List String) : Option SparqlDataset :=
  let pairs := sources.flatMap formPairs
  let default := paramsNamed "default-graph-uri" pairs
  let named := paramsNamed "named-graph-uri" pairs
  if default = [] ∧ named = [] then none else some ⟨default, some named⟩

end Polargraph
