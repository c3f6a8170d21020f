import Cash.Entry.Read
import Cash.Lib.Items

/-!
# Entries in a bucket

`S3Backend`: `set`, `set_metadata_only`, `get_metadata` and `list_entries`, once the uploads queued are done. The objects
are listed in the order of the bucket; the errors of the service are left out, but for an object that is not there.
-/

namespace Cash.S3

open Bytes Py Chunks Entry

/-- `METADATA_PREFETCH_BYTES`. -/
def metadataPrefetchBytes : Nat := 8192

/-- `prefix` and `source_label`. -/
structure Backend where
  root : Str
  sourceLabel : Str

/-- The objects of the bucket. -/
abbrev Bucket := List (Str × Bytes)

/-- `d.setdefault(k, v)`, of a dict. -/
def setDefault (d : Items) (k : Str) (v : Val) : Items := if d.has k then d else d.with k v

namespace Backend

variable (env : Env) (dumps : Items → Bytes) (b : Backend)

/-- `_get_key`. -/
def getKey (key : Str) : Str := b.root ++ key ++ entrySuffix

/-- `metadata.setdefault("source", self.source_label)`. -/
def sourced (metadata : Items) : Items := setDefault metadata (str "source") (.str b.sourceLabel)

/-- `_ranged_get`; none when there is no such object. -/
def rangedGet (bucket : Bucket) (objKey : Str) (nbytes : Nat) : Option Bytes := (bucket.lookup objKey).map (·.take nbytes)

/-- `get_metadata`. -/
def getMetadata (bucket : Bucket) (key : Str) : Option Items :=
  match rangedGet bucket (b.getKey key) metadataPrefetchBytes with
  | none => none
  | some head =>
    match (unpackEntry env head false).result with
    | .ok (metadata, _) => some (b.sourced metadata)
    | .error (.corrupt _) =>
      match metadataSpan head with
      | .error _ => none
      | .ok span =>
        if span ≤ head.length then none
        else
          match rangedGet bucket (b.getKey key) span with
          | none => none
          | some head =>
            match (unpackEntry env head false).result with
            | .ok (metadata, _) => some (b.sourced metadata)
            | .error _ => none
    | .error _ => none

/-- What `list_entries` makes of an object. -/
def listEntry (o : Str × Bytes) : Option Items :=
  if b.root.isPrefixOf o.1 && Str.endsWith o.1 entrySuffix then
    match (unpackEntry env (o.2.take metadataPrefetchBytes) false).result with
    | .ok (metadata, _) => some metadata
    | .error _ => none
  else none

/-- `list_entries`. -/
def listEntries (bucket : Bucket) : List Items := bucket.filterMap (b.listEntry env)

/-- `_init_metadata`, at a time. -/
def initMetadata (metadata : Items) (key : Str) (now : Val) : Items :=
  setDefault (setDefault (setDefault (metadata.with (str "key") (.str key)) (str "created_at") now)
    (str "last_access") now) (str "access_count") (.int 0)

/-- An object put; nothing when the entry cannot be packed. -/
def put (bucket : Bucket) (key : Str) (blob : Option Bytes) : Bucket :=
  match blob with
  | none => bucket
  | some blob => Dict.setItem bucket (b.getKey key) blob

/-- `set`, of a serialized value. -/
def set (bucket : Bucket) (key : Str) (metadata : Items) (serialized : Bytes) (now : Val) : Bucket :=
  let metadata := (initMetadata metadata key now).with (str "size") (.int serialized.length)
  let metadata := setDefault metadata (str "storage") (.list [.str b.sourceLabel])
  b.put bucket key (packEntry dumps metadata serialized none)

/-- `set_metadata_only`. -/
def setMetadataOnly (bucket : Bucket) (key : Str) (metadata : Items) : Bucket :=
  let write :=
    let metadata := (metadata.with (str "key") (.str key)).with (str "metadata_only") (.bool true)
    b.put bucket key (packEntry dumps (setDefault metadata (str "size") (.int 0)) [] none)
  match b.getMetadata env bucket key with
  | some existing => if ((existing.get (str "metadata_only")).map Val.truthy).getD false then write else bucket
  | none => write

/-! ## Buckets -/

inductive Write
  | set (key : Str) (metadata : Items) (serialized : Bytes) (now : Val)
  | setMetadataOnly (key : Str) (metadata : Items)

def write (bucket : Bucket) : Write → Bucket
  | .set key metadata serialized now => b.set dumps bucket key metadata serialized now
  | .setMetadataOnly key metadata => b.setMetadataOnly env dumps bucket key metadata

/-- The bucket that writes leave. -/
def run (writes : List Write) : Bucket := writes.foldl (b.write env dumps) []

/-- The key of an object. -/
def keyOf (objKey : Str) : Str := (objKey.drop b.root.length).take (objKey.length - b.root.length - entrySuffix.length)

/-- The keys stored. -/
def storedKeys (bucket : Bucket) : List Str := bucket.map fun o => b.keyOf o.1

end Backend

end Cash.S3
