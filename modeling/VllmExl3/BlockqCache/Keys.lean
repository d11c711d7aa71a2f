/-
# VllmExl3.BlockqCache.Keys — where an entry lives

`entry` names an entry's file after the checkpoint, for whoever lists the directory, and after a digest
of what it holds. Read from the end, the hashed text says which tuple it was written for
(`keyText_injective`), however the identity is spelled, and the digest can be read off the path
(`entry_digest`). So as far as the digest tells the hashed texts apart, two tuples share an entry only
when they are one (`entry_path_eq_iff`).
-/
import VllmExl3.BlockqCache.Model
import Mathlib.Data.List.DropRight
import Mathlib.Data.Set.Function

namespace VllmExl3.BlockqCache

open PyStr
open Format (BLOCKQ_BLOCK BLOCKQ_BITS)

/-! ## Digests -/

/-- `text.encode()` -/
def encode (text : String) : Bytes := text.toByteArray.data.toList

/-- `hashlib.sha256(data).hexdigest()` -/
structure Sha256 where
  hexdigest : Bytes → String
  length_hexdigest : ∀ data, (hexdigest data).toList.length = 64

/-- `hashlib.sha256(text.encode()).hexdigest()[:16]` -/
def Sha256.digest (sha : Sha256) (text : String) : String :=
  String.ofList ((sha.hexdigest (encode text)).toList.take 16)

theorem Sha256.length_digest (sha : Sha256) (text : String) :
    (sha.digest text).toList.length = 16 := by
  rw [digest, String.toList_ofList, List.length_take, sha.length_hexdigest]
  rfl

/-! ## Keys -/

def CACHE_VERSION : Nat := 1

/-- The fields of a key. -/
def keyFields (identity tensor : String) (rows hidden : Int) : PyDict String String :=
  .ofList [("cache_version", toString CACHE_VERSION), ("checkpoint", identity), ("tensor", tensor),
    ("rows", toString rows), ("hidden", toString hidden), ("block", toString BLOCKQ_BLOCK),
    ("bits", toString BLOCKQ_BITS)]

/-- The text that is hashed: `"|".join(f"{k}={v}" for k, v in fields.items())`. -/
def keyText (identity tensor : String) (rows hidden : Int) : String :=
  "|".intercalate ((keyFields identity tensor rows hidden).items.map fun p => p.1 ++ "=" ++ p.2)

/-- `_slug`, for a `str.isalnum`. -/
def slug (isalnum : Char → Bool) (text : String) : String :=
  let safe := text.toList.map fun c => if isalnum c || c ∈ ['.', '_', '-'] then c else '-'
  let stripped := ((safe.take 64).dropWhile (· = '-')).rdropWhile (· = '-')
  if stripped.isEmpty then "entry" else String.ofList stripped

/-- The file name of an entry. -/
def entryName (sha : Sha256) (isalnum : Char → Bool) (identity tensor : String)
    (rows hidden : Int) : String :=
  slug isalnum identity ++ "-" ++ (sha.digest (keyText identity tensor rows hidden) ++ ".safetensors")

theorem endswith_entryName (sha : Sha256) (isalnum : Char → Bool) (identity tensor : String)
    (rows hidden : Int) :
    endswith (entryName sha isalnum identity tensor rows hidden)
      (sha.digest (keyText identity tensor rows hidden) ++ ".safetensors") = true :=
  endswith_append _ _

/-- `entry` -/
def entry (sha : Sha256) (isalnum : Char → Bool) (root identity tensor : String)
    (rows hidden : Int) : Entry where
  path := PyPath.join root (entryName sha isalnum identity tensor rows hidden)
  metadata := (keyFields identity tensor rows hidden).set "format" "pt"
  path_entry := by
    apply PyPath.endswith_join
    rw [entryName, ← String.append_assoc]
    exact endswith_append _ _

theorem entry_path (sha : Sha256) (isalnum : Char → Bool) (root identity tensor : String)
    (rows hidden : Int) : (entry sha isalnum root identity tensor rows hidden).path =
      PyPath.join root (entryName sha isalnum identity tensor rows hidden) := by
  simp only [entry]

variable {sha : Sha256} {isalnum : Char → Bool} {root root' identity identity' tensor tensor' : String}
  {rows hidden rows' hidden' : Int}

/-! ## Reading a key back -/

/-- The parts of the hashed text: what is before the tensor's name, and the fields from there on. -/
theorem toList_keyText (identity tensor : String) (rows hidden : Int) :
    (keyText identity tensor rows hidden).toList =
      ("cache_version=1|checkpoint=" ++ identity).toList ++
        ([("tensor=" ++ tensor), ("rows=" ++ toString rows), ("hidden=" ++ toString hidden),
          "block=32", "bits=4"].map String.toList).flatMap ('|' :: ·) := by
  have hitems : (keyFields identity tensor rows hidden).items = _ := PyDict.items_ofList (by
    show ["cache_version", "checkpoint", "tensor", "rows", "hidden", "block", "bits"].Nodup
    decide)
  have hversion : toString CACHE_VERSION = "1" := by decide
  have hblock : toString BLOCKQ_BLOCK = "32" := by decide
  have hbits : toString BLOCKQ_BITS = "4" := by decide
  rw [keyText, hitems, hversion, hblock, hbits]
  show ((String.singleton '|').intercalate _).toList = _
  rw [List.map_cons, toList_intercalate_cons]
  simp

/-- A number holds no bar. -/
theorem bar_notMem_toString (n : Int) : '|' ∉ (toString n).toList := by
  intro hmem
  rcases mem_toString_int hmem with hsign | hdigit
  · exact absurd hsign (by decide)
  · exact absurd hdigit (by decide)

/-- The hashed text says which tuple it is of. -/
theorem keyText_injective (hbar : '|' ∉ tensor.toList) (hbar' : '|' ∉ tensor'.toList)
    (h : keyText identity tensor rows hidden = keyText identity' tensor' rows' hidden') :
    identity = identity' ∧ tensor = tensor' ∧ rows = rows' ∧ hidden = hidden' := by
  -- no field from the tensor's name on holds a bar
  have hfields : ∀ (t : String) (r n : Int), '|' ∉ t.toList →
      ∀ f ∈ [("tensor=" ++ t), ("rows=" ++ toString r), ("hidden=" ++ toString n), "block=32",
        "bits=4"].map String.toList, '|' ∉ f := by
    intro t r n ht f hf
    simp only [List.map_cons, List.map_nil, List.mem_cons, List.not_mem_nil, or_false,
      String.toList_append] at hf
    have happend : ∀ (name value : List Char), '|' ∉ name → '|' ∉ value → '|' ∉ name ++ value :=
      fun _ _ hname hvalue hmem => (List.mem_append.mp hmem).elim hname hvalue
    rcases hf with rfl | rfl | rfl | rfl | rfl
    · exact happend _ _ (by decide) ht
    · exact happend _ _ (by decide) (bar_notMem_toString r)
    · exact happend _ _ (by decide) (bar_notMem_toString n)
    · decide
    · decide
  have hlist := congrArg String.toList h
  rw [toList_keyText, toList_keyText] at hlist
  obtain ⟨hfirst, hrest⟩ :=
    fields_injective (by simp) (hfields tensor rows hidden hbar) (hfields tensor' rows' hidden' hbar') hlist
  have hcancel : ∀ name a b : String, (name ++ a).toList = (name ++ b).toList → a = b := by
    intro name a b heq
    rw [String.toList_append, String.toList_append] at heq
    exact String.toList_injective (List.append_cancel_left heq)
  simp only [List.map_cons, List.map_nil, List.cons.injEq] at hrest
  obtain ⟨htensor, hrows, hhidden, -⟩ := hrest
  exact ⟨hcancel _ _ _ hfirst, hcancel _ _ _ htensor, toString_int_injective (hcancel _ _ _ hrows),
    toString_int_injective (hcancel _ _ _ hhidden)⟩

/-! ## Reading a path back -/

/-- The digest can be read off a path: it is what is before the extension, whatever the directory and
the identity are called. -/
theorem entry_digest
    (h : (entry sha isalnum root identity tensor rows hidden).path =
      (entry sha isalnum root' identity' tensor' rows' hidden').path) :
    sha.digest (keyText identity tensor rows hidden) =
      sha.digest (keyText identity' tensor' rows' hidden') := by
  obtain ⟨stem, hstem⟩ := endswith_iff.mp (PyPath.endswith_join
    (endswith_entryName sha isalnum identity tensor rows hidden))
  obtain ⟨stem', hstem'⟩ := endswith_iff.mp (PyPath.endswith_join
    (endswith_entryName sha isalnum identity' tensor' rows' hidden'))
  rw [entry_path, entry_path, hstem, hstem', ← String.append_assoc, ← String.append_assoc] at h
  have hlist := congrArg String.toList (append_right_cancel h)
  rw [String.toList_append, String.toList_append] at hlist
  -- both digests have sixteen characters
  have hlen := (sha.length_digest (keyText identity tensor rows hidden)).trans
    (sha.length_digest (keyText identity' tensor' rows' hidden')).symm
  exact String.toList_injective (List.append_inj_right' hlist hlen)

/-- Two tuples have the same entry exactly when they are the same, however the identities are spelled:
for every set of hashed texts the digest tells apart, and tensor names without a bar. -/
theorem entry_path_eq_iff {hashed : Set String} (hdigest : Set.InjOn sha.digest hashed)
    (hkey : keyText identity tensor rows hidden ∈ hashed)
    (hkey' : keyText identity' tensor' rows' hidden' ∈ hashed)
    (hbar : '|' ∉ tensor.toList) (hbar' : '|' ∉ tensor'.toList) :
    (entry sha isalnum root identity tensor rows hidden).path =
        (entry sha isalnum root identity' tensor' rows' hidden').path ↔
      identity = identity' ∧ tensor = tensor' ∧ rows = rows' ∧ hidden = hidden' := by
  constructor
  · intro h
    exact keyText_injective hbar hbar' (hdigest hkey hkey' (entry_digest h))
  · rintro ⟨rfl, rfl, rfl, rfl⟩
    rfl

/-! ### Two repositories of one slug -/

/-- The hashed text of the embedding of such a repository. -/
def revisionKey (identity : String) : String := keyText identity "model.embed_tokens.weight" 8 64

/-- SHA-256 on the two texts. -/
def revisionSha : Sha256 where
  hexdigest data :=
    if data = encode (revisionKey "org/m@rev1") then
      "592929fa01938a872e569472801690dd827407c2dc5266c1c5e61f0657dab874"
    else if data = encode (revisionKey "org-m@rev1") then
      "ca79c96de6d3602a05f38337fa63e25602fb840afc1b26327a0b71d2c222dd1a"
    else String.ofList (List.replicate 64 '0')
  length_hexdigest data := by
    split_ifs
    · decide
    · decide
    · rw [String.toList_ofList, List.length_replicate]

theorem revisionSha_injOn :
    Set.InjOn revisionSha.digest {revisionKey "org/m@rev1", revisionKey "org-m@rev1"} := by
  have hne : revisionSha.digest (revisionKey "org/m@rev1") ≠
      revisionSha.digest (revisionKey "org-m@rev1") := by decide +kernel
  rintro _ (rfl | rfl) _ (rfl | rfl) heq
  · rfl
  · exact absurd heq hne
  · exact absurd heq hne.symm
  · rfl

/-- Their slugs are the same, their entries are not. -/
theorem same_slug_entries :
    slug Char.isAlphanum "org/m@rev1" = slug Char.isAlphanum "org-m@rev1" ∧
    ((entry revisionSha Char.isAlphanum "/cache" "org/m@rev1" "model.embed_tokens.weight" 8 64).path =
        (entry revisionSha Char.isAlphanum "/cache" "org-m@rev1" "model.embed_tokens.weight" 8 64).path ↔
      "org/m@rev1" = "org-m@rev1" ∧
        "model.embed_tokens.weight" = "model.embed_tokens.weight" ∧ (8 : Int) = 8 ∧ (64 : Int) = 64) :=
  ⟨by decide, entry_path_eq_iff revisionSha_injOn (.inl rfl) (.inr rfl) (by decide) (by decide)⟩

end VllmExl3.BlockqCache
