/-
# VllmExl3.Compose.JsonText — the JSON of headers and indexes

The text `json.dumps` writes for the two kinds of document, for names that need no escape, and a
`Json` that writes and reads it for a given list of documents (`Json.ofDocuments`). The development's
theorems hold for every `Json`; this is the one its examples run on.
-/
import VllmExl3.Compose.Safetensors
import VllmExl3.Lib.TableCodec

namespace VllmExl3.Compose

/-! ## Text -/

/-- The bytes of a string, as UTF-8. -/
def utf8 (s : String) : Bytes := s.toByteArray.data.toList

/-- A string that needs no escape. -/
def quoted (s : String) : String := "\"" ++ s ++ "\""

/-- An object of these members, with the white space around them. -/
def object (opening separator closing : String) (members : List String) : String :=
  "\x7b" ++ opening ++ separator.intercalate members ++ closing ++ "\x7d"

/-- `json.dumps(header, separators=(",", ":"))` -/
def headerText (h : Header) : String :=
  let numbers (ns : List Nat) := "[" ++ ",".intercalate (ns.map toString) ++ "]"
  let tensor (p : String × HeaderRec) := quoted p.1 ++ ":" ++ object "" "," ""
    ["\"dtype\":" ++ quoted p.2.dtype, "\"shape\":" ++ numbers p.2.shape,
      "\"data_offsets\":" ++ numbers [p.2.data_offsets.1, p.2.data_offsets.2]]
  let metadata := if h.metadata.isEmpty then [] else ["\"__metadata__\":" ++
    object "" "," "" (h.metadata.map fun p => quoted p.1 ++ ":" ++ quoted p.2)]
  object "" "," "" (h.tensors.items.map tensor ++ metadata)

/-- `json.dumps(index, indent=2)` -/
def indexText (i : Index) : String :=
  let value : MetaValue → String
    | .int n => toString n
    | .other text => text
  object "\n  " ",\n  " "\n" [
    "\"metadata\": " ++ object "\n    " ",\n    " "\n  "
      (i.metadata.items.map fun p => quoted p.1 ++ ": " ++ value p.2),
    "\"weight_map\": " ++ object "\n    " ",\n    " "\n  "
      (i.weight_map.items.map fun p => quoted p.1 ++ ": " ++ quoted p.2)]

/-! ## Codec -/

instance : Encodable HeaderRec :=
  Encodable.ofLeftInjection (fun r => (r.dtype, r.shape, r.data_offsets))
    (fun p => some ⟨p.1, p.2.1, p.2.2⟩) (fun _ => rfl)

instance : Encodable Header :=
  Encodable.ofLeftInjection (fun h => (h.tensors, h.metadata)) (fun p => some ⟨p.1, p.2⟩)
    (fun _ => rfl)

instance : Encodable MetaValue :=
  Encodable.ofLeftInjection
    (fun | .int n => (Sum.inl n : Nat ⊕ String) | .other text => .inr text)
    (fun | .inl n => some (.int n) | .inr text => some (.other text))
    (fun v => by cases v <;> rfl)

instance : Encodable Index :=
  Encodable.ofLeftInjection (fun i => (i.metadata, i.weight_map)) (fun p => some ⟨p.1, p.2⟩)
    (fun _ => rfl)

/-- Headers with their text. -/
def headerTable (headers : List Header) : List (Header × Bytes) :=
  headers.map fun h => (h, utf8 (headerText h))

/-- Indexes with their text. -/
def indexTable (indexes : List Index) : List (Index × Bytes) :=
  indexes.map fun i => (i, utf8 (indexText i))

/-- A `Json` that is the real one on these documents. -/
def Json.ofDocuments (headers : List Header) (indexes : List Index)
    (hheaders : TableOk (headerTable headers)) (hindexes : TableOk (indexTable indexes)) : Json where
  loadsHeader := tableLoads (headerTable headers)
  dumpsHeader := tableDumps (headerTable headers)
  loads_dumpsHeader := tableLoads_tableDumps hheaders
  loadsIndex := tableLoads (indexTable indexes)
  dumpsIndex := tableDumps (indexTable indexes)
  loads_dumpsIndex := fun i => by
    have h := tableLoads_tableDumps hindexes i 0
    rwa [List.replicate_zero, List.append_nil] at h

/-- A shard of this header and data, padded as `write_shard` pads it. -/
def shardFile (header : Header) (data : Bytes) : Bytes :=
  let dumped := utf8 (headerText header)
  let blob := dumped ++ List.replicate ((8 - dumped.length % 8) % 8) 32
  leBytes 8 blob.length ++ blob ++ data

end VllmExl3.Compose
