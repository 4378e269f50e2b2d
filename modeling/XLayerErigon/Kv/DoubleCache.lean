import XLayerErigon.Data.Bytes
import XLayerErigon.Go
import XLayerErigon.Kv.Table

/-
  A table of the database seen through two caches.

  Writes go to the one cache, and reads look into it, then into the other one, then into the
  database.  A deleted key is kept in the cache with a nil value.  Reading it gives nil, as it
  should; but the other reads take it for a key that is there, and the walk over a table visits a
  key that is both cached and in the database twice.

  Main results:
    * `MapmutationWithDoubleCache.plain_run`
    * `MapmutationWithDoubleCache.getOne_plain`
    * `MapmutationWithDoubleCache.reads_iff`
-/

namespace XLayerErigon.Kv

-- Keys

theorem le_of_isPrefix {start key : Bytes} (hPrefix : start <+: key) : start ≤ key := by
  rcases hPrefix with ⟨rest, rfl⟩
  induction start with
  | nil =>
    cases rest with
    | nil => exact le_refl _
    | cons b rest => exact (List.nil_lt_cons b rest).le
  | cons b start ih => exact List.cons_le_cons b ih

/- One table of a cache.  A nil value marks a deleted key. -/
abbrev Bucket := Table Bytes (Option Bytes)

/- A cache has no bucket for a table it never saw. -/
abbrev Cache := String → Option Bucket

abbrev Db := String → Table Bytes Bytes

structure MapmutationWithDoubleCache where
  modifiedCache : Cache
  immutableCache : Cache
  db : Option Db

namespace MapmutationWithDoubleCache

def getMem (m : MapmutationWithDoubleCache) (table : String)
    (key : Bytes) : Option (Option Bytes) :=
  match (m.modifiedCache table).bind (·.get key) with
  | some value => some value
  | none => (m.immutableCache table).bind (·.get key)

def getOne (m : MapmutationWithDoubleCache) (table : String) (key : Bytes) : Option Bytes :=
  match m.getMem table key with
  | some value => value
  | none => m.db.bind (fun db => (db table).get key)

def has (m : MapmutationWithDoubleCache) (table : String) (key : Bytes) : Bool :=
  match m.getMem table key with
  | some _ => true
  | none =>
    match m.db with
    | some db => (db table).has key
    | none => false

def put (m : MapmutationWithDoubleCache) (table : String) (k : Bytes)
    (v : Option Bytes) : MapmutationWithDoubleCache :=
  { m with
    modifiedCache :=
      Function.update m.modifiedCache table (some (((m.modifiedCache table).getD .empty).put k v)) }

def delete (m : MapmutationWithDoubleCache) (table : String)
    (k : Bytes) : MapmutationWithDoubleCache :=
  m.put table k none

/- Write the entries of one map into another. -/
def mergeBucket (into bucket : Bucket) : Bucket :=
  bucket.entries.foldl (fun t e => t.put e.1 e.2) into

/- The two caches together, if one has the table. -/
def tmpCache (m : MapmutationWithDoubleCache) (table : String) : Option Bucket :=
  if (m.immutableCache table).isNone && (m.modifiedCache table).isNone then none
  else
    some (mergeBucket ((m.immutableCache table).getD .empty) ((m.modifiedCache table).getD .empty))

/- Insert a key where the first one not below it stands. -/
def insertKey (keys : List Bytes) (k : Bytes) : List Bytes :=
  keys.insertIdx (keys.findIdx (fun key => k ≤ key)) k

/-
  The entries that the walker of `ForEach` is called with. The cached entries are ranged over in
  any order.
-/
def visits (m : MapmutationWithDoubleCache) (db : Db) (order : List (Bytes × Option Bytes))
    (bucket : String) (fromPrefix : Bytes) : List (Bytes × Option Bytes) :=
  let walked := ((db bucket).walk fromPrefix).map (fun e => (e.1, some e.2))
  match m.tmpCache bucket with
  | none => walked
  | some _ =>
    let keys := order.foldl (fun keys e => insertKey keys e.1) (walked.map Prod.fst)
    let values :=
      (walked ++ order).foldl (fun values e => Function.update values e.1 e.2) (fun _ => none)
    ((keys.mergeSort (· ≤ ·)).filter
      (fun k => fromPrefix.isPrefixOf k)).map (fun k => (k, values k))

/- An order in which Go may range over the cached entries. -/
def RangesOver (m : MapmutationWithDoubleCache) (bucket : String)
    (order : List (Bytes × Option Bytes)) : Prop :=
  order.Perm ((m.tmpCache bucket).elim [] Table.entries)

/- A walker that fails ends the walk. -/
def forEach {σ : Type} (m : MapmutationWithDoubleCache) (order : List (Bytes × Option Bytes))
    (bucket : String) (fromPrefix : Bytes) (walker : σ → Bytes × Option Bytes → Except Failure σ)
    (s : σ) : Except Failure σ :=
  match m.db with
  | none => .error .panic
  | some db =>
    (m.visits db order bucket fromPrefix).foldlM walker s

inductive Op where
  | put (table : String) (k v : Bytes)
  | delete (table : String) (k : Bytes)

def apply (m : MapmutationWithDoubleCache) :
    Op → MapmutationWithDoubleCache
  | .put table k v => m.put table k (some v)
  | .delete table k => m.delete table k

def run (m : MapmutationWithDoubleCache) (ops : List Op) : MapmutationWithDoubleCache :=
  ops.foldl apply m

end MapmutationWithDoubleCache

/- The same operations on the tables themselves. -/
def Db.apply (db : Db) : MapmutationWithDoubleCache.Op → Db
  | .put table k v =>
      Function.update db table ((db table).put k v)
  | .delete table k =>
      Function.update db table ((db table).delete k)

def Db.run (db : Db) (ops : List MapmutationWithDoubleCache.Op) : Db := ops.foldl Db.apply db

def applyEntry (t : Table Bytes Bytes) (e : Bytes × Option Bytes) : Table Bytes Bytes :=
  match e.2 with
  | some v => t.put e.1 v
  | none => t.delete e.1

/- A table with the entries of a cache written into it. -/
def overlay (t : Table Bytes Bytes) (bucket : Option Bucket) : Table Bytes Bytes :=
  (bucket.elim [] Table.entries).foldl applyEntry t

namespace MapmutationWithDoubleCache

/- The database overlaid by the caches. -/
def plain (m : MapmutationWithDoubleCache) (db : Db) : Db :=
  fun table => overlay (overlay (db table) (m.immutableCache table)) (m.modifiedCache table)

end MapmutationWithDoubleCache

-- Folds over entries

section

variable {τ α β : Type} {write : τ → Bytes × α → τ} (read : τ → Bytes → β) (value : α → β)
  (hWrite : ∀ t e k, read (write t e) k = if k = e.1 then value e.2 else read t k)

include hWrite

/- What a key reads as once all entries are written. -/
theorem foldl_entries_get {es : List (Bytes × α)} (hNodup : (es.map Prod.fst).Nodup) (t : τ)
    (k : Bytes) : (∀ v, (k, v) ∈ es → read (es.foldl write t) k = value v) ∧
      ((∀ v, (k, v) ∉ es) → read (es.foldl write t) k = read t k) := by
  induction es generalizing t with
  | nil => simp
  | cons e es ih =>
    rcases e with ⟨key, v⟩
    rcases ih (List.nodup_cons.1 hNodup).2 (write t (key, v)) with ⟨hWritten, hOther⟩
    grind

/- The entries of a bucket, in any order. -/
theorem foldl_perm_get {order : List (Bytes × α)} {bucket : Table Bytes α} (hOrder : order.Perm bucket.entries) (t : τ)
    (k : Bytes) : read (order.foldl write t) k = (bucket.get k).elim (read t k) value := by
  have hNodup : (order.map Prod.fst).Nodup := (hOrder.map Prod.fst).nodup_iff.2 bucket.nodup_keys
  rcases foldl_entries_get read value hWrite hNodup t k with ⟨hWritten, hOther⟩
  simp only [hOrder.mem_iff] at hWritten hOther
  cases hGet : bucket.get k with
  | none => exact hOther (Table.get_eq_none_iff.1 hGet)
  | some v => exact hWritten v (Table.get_eq_some_iff.1 hGet)

end

theorem get_mergeBucket (into bucket : Bucket) (k : Bytes) :
    (MapmutationWithDoubleCache.mergeBucket into
      bucket).get k = (bucket.get k).elim (into.get k) some := by
  refine foldl_perm_get (fun t k => Table.get t k) some ?_ (List.Perm.refl _) into k
  intro t e k
  by_cases hKey : k = e.1 <;> simp [Table.get_put, hKey]

theorem get_applyEntry (t : Table Bytes Bytes) (e : Bytes × Option Bytes) (k : Bytes) :
    (applyEntry t e).get k = if k = e.1 then e.2 else t.get k := by
  fun_cases applyEntry t e <;> simp_all [Table.get_delete, Table.get_put]

theorem get_overlay (t : Table Bytes Bytes) (bucket : Option Bucket) (k : Bytes) :
    (overlay t bucket).get k = (bucket.bind (·.get k)).getD (t.get k) := by
  cases bucket with
  | none => rfl
  | some bucket =>
    have hGet := foldl_perm_get (fun t k => Table.get t k) id
        get_applyEntry (List.Perm.refl bucket.entries) t k
    refine hGet.trans ?_
    rw [Option.bind_some]
    cases bucket.get k <;> rfl

namespace MapmutationWithDoubleCache

variable (m : MapmutationWithDoubleCache)

theorem get_plain (db : Db) (table : String) (k : Bytes) :
    (m.plain db table).get k = (m.getMem table k).getD ((db table).get k) := by
  rw [plain, get_overlay, get_overlay, getMem]
  cases (m.modifiedCache table).bind (·.get k) <;> rfl

theorem getMem_put (table table' : String) (k k' : Bytes) (v : Option Bytes) :
    (m.put table k v).getMem table' k' =
      if table' = table ∧ k' = k then some v else m.getMem table' k' := by
  by_cases hTable : table' = table
  · subst hTable
    by_cases hKey : k' = k
    · simp [getMem, put, Table.get_put, hKey]
    · cases hCache : m.modifiedCache table' <;>
        simp [getMem, put, Table.get_put, hKey, hCache]
  · simp [getMem, put, hTable]

theorem plain_apply (db : Db) (op : Op) : (m.apply op).plain db = (m.plain db).apply op := by
  funext table
  refine Table.ext_get fun k => ?_
  rw [get_plain]
  cases op with
  | put table' k' v =>
    rw [apply, getMem_put, Db.apply, Function.update_apply]
    split_ifs <;> simp_all [Table.get_put, get_plain]
  | delete table' k' =>
    rw [apply, delete, getMem_put, Db.apply, Function.update_apply]
    split_ifs <;> simp_all [Table.get_delete, get_plain]

/- Writes to the cache are writes to the plain table. -/
theorem plain_run (db : Db) (ops : List Op) : (m.run ops).plain db = (m.plain db).run ops := by
  induction ops generalizing m with
  | nil => rfl
  | cons op ops ih =>
    rw [run, List.foldl_cons, Db.run, List.foldl_cons, ← plain_apply]
    exact ih (m.apply op)

theorem db_run (ops : List Op) : (m.run ops).db = m.db := by
  induction ops generalizing m with
  | nil => rfl
  | cons op ops ih =>
    rw [run, List.foldl_cons]
    refine (ih (m.apply op)).trans ?_
    cases op <;> rfl

variable {m : MapmutationWithDoubleCache} {db : Db}

variable {value : Option Bytes} {start : Bytes} {table : String} {bucket : Bucket}
  {order : List (Bytes × Option Bytes)}

theorem getOne_plain (hDb : m.db = some db) (table : String) (key : Bytes) :
    m.getOne table key = (m.plain db table).get key := by
  rw [get_plain, getOne, hDb]
  cases m.getMem table key <;> rfl

/- A deleted key is taken for one that is there. -/
theorem has_plain_iff (hDb : m.db = some db) (table : String) (key : Bytes) :
    m.has table key = (m.plain db table).has key ↔ m.getMem table key ≠ some none := by
  rw [Table.has, get_plain, has, hDb]
  cases m.getMem table key with
  | none => simp [Table.has]
  | some value => cases value <;> simp

-- Walks

theorem perm_insertKey (keys : List Bytes) (k : Bytes) : (insertKey keys k).Perm (k :: keys) := by
  exact List.perm_insertIdx k keys List.findIdx_le_length

theorem perm_foldl_insertKey (order : List (Bytes × Option Bytes)) (keys : List Bytes) :
    (order.foldl (fun keys e => insertKey keys e.1) keys).Perm (order.map Prod.fst ++ keys) := by
  induction order generalizing keys with
  | nil => exact List.Perm.refl _
  | cons e order ih =>
    refine (ih (insertKey keys e.1)).trans ?_
    refine ((perm_insertKey keys e.1).append_left _).trans ?_
    exact List.perm_middle

theorem get_tmpCache (hBucket : m.tmpCache table = some bucket) (k : Bytes) :
    bucket.get k = m.getMem table k := by
  unfold tmpCache at hBucket
  split at hBucket
  · cases hBucket
  · rw [← Option.some.inj hBucket, get_mergeBucket, getMem]
    cases m.modifiedCache table with
    | none => cases m.immutableCache table <;> simp
    | some modified => cases hKey : modified.get k <;> cases m.immutableCache table <;> simp [hKey]

theorem tmpCache_none (hNone : m.tmpCache table = none) (k : Bytes) : m.getMem table k = none := by
  unfold tmpCache at hNone
  split at hNone
  · rename_i hBoth
    simp only [Bool.and_eq_true, Option.isNone_iff_eq_none] at hBoth
    simp [getMem, hBoth.1, hBoth.2]
  · cases hNone

def plainVisits (t : Table Bytes Bytes) (start : Bytes) : List (Bytes × Option Bytes) :=
  (t.walk start).map (fun e => (e.1, some e.2))

theorem mem_plainVisits {t : Table Bytes Bytes} {start k : Bytes} :
    (k, value) ∈ plainVisits t start ↔ start ≤ k ∧ ∃ v, t.get k = some v ∧ value = some v := by
  rw [plainVisits, List.mem_map]
  constructor
  · rintro ⟨e, hMem, hSame⟩
    cases hSame
    rcases Table.mem_walk.1 hMem with ⟨hGet, hLe⟩
    exact ⟨hLe, e.2, hGet, rfl⟩
  · rintro ⟨hLe, v, hGet, rfl⟩
    exact ⟨(k, v), Table.mem_walk.2 ⟨hGet, hLe⟩, rfl⟩

/- The entries of the database that a walk collects. -/
def walked (db : Db) (table : String) (start : Bytes) : Bucket where
  entries := ((db table).walk start).map (fun e => (e.1, some e.2))
  sorted := List.Pairwise.map _ (fun _ _ hLess => hLess) ((db table).walk_sorted start)

theorem get_walked {start k : Bytes} :
    (walked db table start).get k = some value ↔
      start ≤ k ∧ ∃ v, (db table).get k = some v ∧ value = some v :=
  Table.get_eq_some_iff.trans mem_plainVisits

def walkKeys (db : Db) (order : List (Bytes × Option Bytes)) (table : String)
    (start : Bytes) : List Bytes :=
  order.foldl (fun keys e => insertKey keys e.1) ((walked db table start).entries.map Prod.fst)

theorem perm_walkKeys (hOrder : order.Perm bucket.entries) (table : String) (start : Bytes) :
    (walkKeys db order table start).Perm
      (bucket.entries.map Prod.fst ++ (walked db table start).entries.map Prod.fst) :=
  (perm_foldl_insertKey order _).trans ((hOrder.map Prod.fst).append_right _)

def walkValues (db : Db) (order : List (Bytes × Option Bytes)) (table : String)
    (start : Bytes) : Bytes → Option Bytes :=
  ((walked db table start).entries ++ order).foldl (fun values e => Function.update values e.1 e.2)
    (fun _ => none)

theorem walkValues_eq (hOrder : order.Perm bucket.entries) (table : String) (start k : Bytes) :
    walkValues db order table start k =
      (bucket.get k).elim (((walked db table start).get k).elim none id) id := by
  have hWrite : ∀ (values : Bytes → Option Bytes) (e : Bytes × Option Bytes) (k : Bytes),
        Function.update values e.1 e.2 k = if k = e.1 then id e.2 else values k := by
    simp [Function.update_apply]
  have hBase := foldl_perm_get (fun (values : Bytes → Option Bytes) k => values k) id
    hWrite (List.Perm.refl (walked db table start).entries) (fun _ => none) k
  rw [walkValues, List.foldl_append, ← hBase]
  exact foldl_perm_get (fun (values : Bytes → Option Bytes) k => values k) id hWrite hOrder _ k

theorem visits_some (hBucket : m.tmpCache table = some bucket) (order : List (Bytes × Option Bytes))
    (start : Bytes) :
    m.visits db order table start =
      (((walkKeys db order table start).mergeSort (· ≤ ·)).filter (fun k => start.isPrefixOf k)).map
        (fun k => (k, walkValues db order table start k)) := by
  rw [visits, hBucket]
  rfl

theorem mem_visits (hBucket : m.tmpCache table = some bucket) (hOrder : order.Perm bucket.entries)
    {start k : Bytes} :
    (k, value) ∈ m.visits db order table start ↔
      start <+: k ∧
        (bucket.get k = some value ∨
          bucket.get k = none ∧ (walked db table start).get k = some value) := by
  rw [visits_some hBucket, List.mem_map]
  have hKeys : k ∈ walkKeys db order table start ↔
        (∃ value, bucket.get k = some value) ∨
          ∃ value, (walked db table start).get k = some value := by
    rw [(perm_walkKeys hOrder table start).mem_iff, List.mem_append, List.mem_map, List.mem_map]
    simp only [Table.get_eq_some_iff, Prod.exists, exists_and_right, exists_eq_right]
  constructor
  · rintro ⟨k', hMem, hSame⟩
    cases hSame
    rcases List.mem_filter.1 hMem with ⟨hKey, hStarts⟩
    refine ⟨ List.isPrefixOf_iff_prefix.1 hStarts, ?_⟩
    rw [List.mem_mergeSort, hKeys] at hKey
    rw [walkValues_eq hOrder]
    cases hCached : bucket.get k with
    | some value => exact Or.inl rfl
    | none =>
      rcases hKey with ⟨value, hSome⟩ | ⟨value, hSome⟩
      · rw [hCached] at hSome
        cases hSome
      · exact Or.inr ⟨rfl, by rw [hSome]; rfl⟩
  · rintro ⟨hStarts, hValue⟩
    refine ⟨k, List.mem_filter.2 ⟨?_, List.isPrefixOf_iff_prefix.2 hStarts⟩, ?_⟩
    · rw [List.mem_mergeSort, hKeys]
      rcases hValue with hSome | ⟨_, hSome⟩
      · exact Or.inl ⟨value, hSome⟩
      · exact Or.inr ⟨value, hSome⟩
    · rw [walkValues_eq hOrder]
      rcases hValue with hSome | ⟨hNone, hSome⟩
      · rw [hSome]
        rfl
      · rw [hNone, hSome]
        rfl

/-
  When a walk over a cached table is one over the plain table: it meets no deleted key, no key
  that is both cached and in the database, and no key that does not begin with the start key.
-/
structure PlainWalk
    (m : MapmutationWithDoubleCache) (db : Db) (table : String) (start : Bytes) : Prop where
  noDeleted : ∀ k, start <+: k → m.getMem table k ≠ some none
  notBoth : ∀ k, start <+: k → m.getMem table k ≠ none → (db table).get k = none
  allBegin : ∀ k v, (m.plain db table).get k = some v → start ≤ k → start <+: k

theorem PlainWalk.mem_iff (hPlain : PlainWalk m db table start)
    (hBucket : m.tmpCache table = some bucket) (hOrder : order.Perm bucket.entries)
    (e : Bytes × Option Bytes) :
    e ∈ m.visits db order table start ↔ e ∈ plainVisits (m.plain db table) start := by
  rcases e with ⟨k, value⟩
  rw [mem_visits hBucket hOrder, mem_plainVisits, get_tmpCache hBucket, get_plain]
  constructor
  · rintro ⟨hStarts, hCached | ⟨hNone, hWalked⟩⟩
    · refine ⟨le_of_isPrefix hStarts, ?_⟩
      rw [hCached]
      cases value with
      | none => exact absurd hCached (hPlain.noDeleted k hStarts)
      | some v => exact ⟨v, rfl, rfl⟩
    · rcases get_walked.1 hWalked with ⟨hLe, v, hGet, hSome⟩
      rw [hNone]
      exact ⟨hLe, v, hGet, hSome⟩
  · rintro ⟨hLe, v, hGet, rfl⟩
    have hStarts : start <+: k := hPlain.allBegin k v (by rw [get_plain, hGet]) hLe
    refine ⟨hStarts, ?_⟩
    cases hCached : m.getMem table k with
    | none =>
      rw [hCached] at hGet
      exact Or.inr ⟨rfl, get_walked.2 ⟨hLe, v, hGet, rfl⟩⟩
    | some cached =>
      rw [hCached] at hGet
      exact Or.inl (congrArg some hGet)

/- The keys that a walk calls its walker with. -/
def visitedKeys (db : Db) (order : List (Bytes × Option Bytes)) (table : String)
    (start : Bytes) : List Bytes :=
  ((walkKeys db order table start).mergeSort (· ≤ ·)).filter (fun k => start.isPrefixOf k)

theorem perm_visitedKeys (hOrder : order.Perm bucket.entries) (table : String) (start : Bytes) :
    (visitedKeys db order table start).Perm
      ((bucket.entries.map Prod.fst).filter (fun k => start.isPrefixOf k) ++
        ((walked db table start).entries.map Prod.fst).filter (fun k => start.isPrefixOf k)) := by
  rw [← List.filter_append]
  exact ((List.mergeSort_perm _ _).trans (perm_walkKeys hOrder table start)).filter _

theorem visitedKeys_le (order : List (Bytes × Option Bytes)) (table : String) (start : Bytes) :
    (visitedKeys db order table start).Pairwise (· ≤ ·) :=
  (List.pairwise_mergeSort' (· ≤ ·) _).filter _

/- No key is visited twice if none is both cached and in the database. -/
theorem nodup_visitedKeys_iff (hBucket : m.tmpCache table = some bucket)
    (hOrder : order.Perm bucket.entries) :
    (visitedKeys db order table start).Nodup ↔
      ∀ k, start <+: k → m.getMem table k ≠ none → (db table).get k = none := by
  have hKeys : ∀ (b : Bucket) (k : Bytes),
      k ∈ (b.entries.map Prod.fst).filter (fun k => start.isPrefixOf k) ↔
        start <+: k ∧ ∃ v, b.get k = some v := by
    intro b k
    simp [Table.get_eq_some_iff, and_comm]
  rw [(perm_visitedKeys hOrder table start).nodup_iff, List.nodup_append]
  simp only [hKeys, get_tmpCache hBucket, get_walked]
  constructor
  · rintro ⟨-, -, hApart⟩ k hStarts hCached
    by_contra hDb
    rcases Option.ne_none_iff_exists'.1 hCached with ⟨value, hValue⟩
    rcases Option.ne_none_iff_exists'.1 hDb with ⟨v, hGet⟩
    exact hApart k ⟨hStarts, value, hValue⟩ k
      ⟨hStarts, some v, le_of_isPrefix hStarts, v, hGet, rfl⟩ rfl
  · intro hApart
    refine ⟨bucket.nodup_keys.filter _, (walked db table start).nodup_keys.filter _, ?_⟩
    rintro k ⟨hStarts, value, hValue⟩ _ ⟨-, _, -, v, hGet, -⟩ rfl
    simp [hApart k hStarts (by simp [hValue])] at hGet

theorem PlainWalk.visits_sorted (hPlain : PlainWalk m db table start)
    (hBucket : m.tmpCache table = some bucket) (hOrder : order.Perm bucket.entries) :
    (m.visits db order table start).Pairwise (fun a b => a.1 < b.1) := by
  have hNodup := (nodup_visitedKeys_iff hBucket hOrder).2 hPlain.notBoth
  have hLess : (visitedKeys db order table start).Pairwise (· < ·) :=
    ((visitedKeys_le order table start).and hNodup).imp
      (fun hBoth => lt_of_le_of_ne hBoth.1 hBoth.2)
  rw [visits_some hBucket]
  exact List.Pairwise.map _ (fun _ _ hLt => hLt) hLess

/- A walk over the plain table visits no key twice. -/
theorem nodup_of_visits (hBucket : m.tmpCache table = some bucket)
    (hSame : m.visits db order table start = plainVisits (m.plain db table) start) :
    (visitedKeys db order table start).Nodup := by
  have hKeys : (m.visits db order table start).map Prod.fst = visitedKeys db order table start := by
    rw [visits_some hBucket, List.map_map]
    exact List.map_id _
  rw [← hKeys, hSame, plainVisits, List.map_map]
  refine List.Pairwise.map _ ?_ ((m.plain db table).walk_sorted start)
  intro a b hLess
  exact hLess.ne

theorem visits_plain_iff (hBucket : m.tmpCache table = some bucket)
    (hOrder : order.Perm bucket.entries) :
    m.visits db order table start =
        plainVisits (m.plain db table) start ↔
      PlainWalk m db table start := by
  constructor
  · intro hSame
    refine ⟨?_, ?_, ?_⟩
    · intro k hStarts hDeleted
      have hMem : (k, none) ∈ m.visits db order table start :=
        (mem_visits hBucket hOrder).2 ⟨hStarts, Or.inl ((get_tmpCache hBucket k).trans hDeleted)⟩
      rw [hSame, mem_plainVisits] at hMem
      rcases hMem with ⟨_, v, _, hSome⟩
      cases hSome
    · exact (nodup_visitedKeys_iff hBucket hOrder).1 (nodup_of_visits hBucket hSame)
    · intro k v hGet hLe
      have hMem : (k, some v) ∈ plainVisits (m.plain db table) start :=
        mem_plainVisits.2 ⟨hLe, v, hGet, rfl⟩
      rw [← hSame, mem_visits hBucket hOrder] at hMem
      exact hMem.1
  · intro hPlain
    have hAnti : Std.Antisymm (fun a b : Bytes × Option Bytes => a.1 < b.1) :=
      ⟨fun a b hLess hMore => absurd hLess (lt_asymm hMore)⟩
    have hIrrefl : Std.Irrefl (fun a b : Bytes × Option Bytes => a.1 < b.1) :=
      ⟨fun a => lt_irrefl a.1⟩
    refine (hPlain.visits_sorted hBucket hOrder).eq_of_mem_iff ?_ (hPlain.mem_iff hBucket hOrder)
    exact List.Pairwise.map _ (fun _ _ hLt => hLt) ((m.plain db table).walk_sorted start)

-- All reads

/- The reads of a key and a walk give what the table holds. -/
def ReadsPlain (m : MapmutationWithDoubleCache) (db : Db) (t : Table Bytes Bytes) (table : String)
    (key start : Bytes) : Prop :=
  m.getOne table key = t.get key ∧ m.has table key = t.has key ∧
  ∀ order, m.RangesOver table order → m.visits db order table start = plainVisits t start

theorem readsPlain_iff (hDb : m.db = some db) (table : String) (key start : Bytes) :
    ReadsPlain m db (m.plain db table) table key start ↔
      m.getMem table key ≠ some none ∧ (m.tmpCache table = none ∨ PlainWalk m db table start) := by
  rw [ReadsPlain, has_plain_iff hDb]
  constructor
  · rintro ⟨_, hHas, hWalk⟩
    refine ⟨hHas, ?_⟩
    cases hCache : m.tmpCache table with
    | none => exact Or.inl rfl
    | some bucket =>
      refine Or.inr ((visits_plain_iff hCache
        (List.Perm.refl bucket.entries)).1 (hWalk bucket.entries ?_))
      rw [RangesOver, hCache]
      exact List.Perm.refl _
  · rintro ⟨hHas, hWalk⟩
    refine ⟨getOne_plain hDb table key, hHas, ?_⟩
    intro order hOrder
    cases hCache : m.tmpCache table with
    | none =>
      have hSame : m.plain db table = db table := by
        refine Table.ext_get fun k => ?_
        rw [get_plain, tmpCache_none hCache]
        rfl
      rw [visits, hCache, hSame]
      rfl
    | some bucket =>
      rw [RangesOver, hCache] at hOrder
      rcases hWalk with hNone | hPlain
      · rw [hCache] at hNone
        cases hNone
      · exact (visits_plain_iff hCache hOrder).2 hPlain

/-
  After any writes, the reads are those of the plain table after the same writes, if and only if
  the key is not cached as deleted and the walk meets no key that the caches treat in their own
  way.
-/
theorem reads_iff (modifiedCache immutableCache : Cache) (db : Db) (ops : List Op) (table : String)
    (key start : Bytes) :
    ReadsPlain (run ⟨modifiedCache, immutableCache, some db⟩ ops) db
        ((plain ⟨modifiedCache, immutableCache, some db⟩ db).run ops table) table key start ↔
      getMem (run ⟨modifiedCache, immutableCache, some db⟩ ops) table key ≠ some none ∧
        (tmpCache (run ⟨modifiedCache, immutableCache,
            some db⟩ ops) table = none ∨
          PlainWalk (run ⟨modifiedCache, immutableCache, some db⟩ ops) db table start) := by
  rw [← plain_run]
  exact readsPlain_iff (db_run _ ops) table key start

/- A table with one entry, of which the key is deleted. -/
def sampleDb : Db := fun _ => Table.empty.put [1] [7]

theorem not_readsPlain_deleted :
    ¬ ReadsPlain
      (run ⟨fun _ => none, fun _ => none, some sampleDb⟩ [.delete "accounts" [1]]) sampleDb
      ((plain ⟨fun _ => none, fun _ => none, some sampleDb⟩
        sampleDb).run [.delete "accounts" [1]] "accounts")
      "accounts" [1] [] := by
  rw [← plain_run, readsPlain_iff (db_run _ _)]
  rintro ⟨hHas, _⟩
  exact hHas (by simp [run, apply, delete, getMem_put])

end MapmutationWithDoubleCache

end XLayerErigon.Kv
