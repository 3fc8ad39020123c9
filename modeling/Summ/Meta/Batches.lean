import Summ.Meta.Engine

/-!
# What the engines make of a batch

A batch over keys and values as bytes, folded over an ordered map, against what
`RocksEngine::apply` hands to RocksDB and what `RedbEngine::apply` does in its
transaction. The two part where a prefix has no successor: RocksDB is then
handed the keys stored before the batch, which leaves out what the batch put.
-/

namespace Summ

/-- `MetaOp`. -/
inductive ByteOp
  | put (key value : Bytes)
  | delete (key : Bytes)
  | deletePrefix (pre : Bytes)

abbrev ByteBatch := List ByteOp

abbrev ByteStore := OrderedMap Bytes Bytes

namespace ByteOp

/-- What the operation says of the store. -/
def apply (s : ByteStore) : ByteOp → ByteStore
  | put key value => s.insert key value
  | delete key => s.erase key
  | deletePrefix pre => s.keep fun k => !decide (pre <+: k)

/-- What the operation leaves at a key, when it touches it. -/
def edit : ByteOp → Bytes → Option (Option Bytes)
  | put key value, k => if key = k then some (some value) else none
  | delete key, k => if key = k then some none else none
  | deletePrefix pre, k => if pre <+: k then some none else none

/-- A prefix delete that reaches the end of the keyspace. -/
def unbounded : ByteOp → Bool
  | deletePrefix pre => (Rocks.prefixSuccessor pre).isNone
  | _ => false

def touches (op : ByteOp) (k : Bytes) : Bool := (op.edit k).isSome

end ByteOp

/-- The operations of a batch from left to right. -/
def ByteBatch.fold (s : ByteStore) (batch : ByteBatch) : ByteStore := batch.foldl ByteOp.apply s

/-! ## RocksDB -/

namespace Rocks

/-- The entries of a RocksDB write batch. -/
inductive RocksOp
  | put (key value : Bytes)
  | delete (key : Bytes)
  | deleteRange (start end_ : Bytes)

namespace RocksOp

def run (s : ByteStore) : RocksOp → ByteStore
  | put key value => s.insert key value
  | delete key => s.erase key
  | deleteRange start end_ => s.keep fun k => !decide (start ≤ k ∧ k < end_)

def edit : RocksOp → Bytes → Option (Option Bytes)
  | put key value, k => if key = k then some (some value) else none
  | delete key, k => if key = k then some none else none
  | deleteRange start end_, k => if start ≤ k ∧ k < end_ then some none else none

end RocksOp

/-- `db.iterator(From(prefix, Forward))`, until a key does not start with the prefix. -/
def enumerate (db : ByteStore) (pre : Bytes) : List Bytes :=
  ((rawIterator id db.entries { iterateUpperBound := none, prefixSameAsStart := false }
    pre).takeWhile fun e => decide (pre <+: e.1)).map Prod.fst

/-- What one operation adds to the RocksDB batch. -/
def rocksOps (db : ByteStore) : ByteOp → List RocksOp
  | .put key value => [.put key value]
  | .delete key => [.delete key]
  | .deletePrefix pre =>
    match prefixSuccessor pre with
    | some end_ => [.deleteRange pre end_]
    -- the database as it is before the batch, not as the batch has left it so far
    | none => (enumerate db pre).map .delete

/-- `RocksEngine::apply`. -/
def apply (db : ByteStore) (batch : ByteBatch) : ByteStore :=
  if batch.isEmpty then db
  else (batch.flatMap (rocksOps db)).foldl RocksOp.run db

end Rocks

/-! ## redb -/

namespace Redb

/-- `Table::retain_in(start.., test)`. -/
def retainIn (s : ByteStore) (start : Bytes) (test : Bytes → Bool) : ByteStore :=
  s.keep fun k => !decide (start ≤ k) || test k

def applyOp (table : ByteStore) : ByteOp → ByteStore
  | .put key value => table.insert key value
  | .delete key => table.erase key
  | .deletePrefix pre => retainIn table pre fun k => !decide (pre <+: k)

/-- `RedbEngine::apply`. -/
def apply (db : ByteStore) (batch : ByteBatch) : ByteStore :=
  if batch.isEmpty then db else batch.foldl applyOp db

end Redb

/-! ## One operation, key by key -/

theorem ByteOp.get_apply (s : ByteStore) (op : ByteOp) (k : Bytes) :
    (op.apply s).get k = (op.edit k).getD (s.get k) := by
  cases op with
  | put key value =>
    simp only [apply, edit, OrderedMap.get_insert]
    split <;> rfl
  | delete key =>
    simp only [apply, edit, OrderedMap.get_erase]
    split <;> rfl
  | deletePrefix pre =>
    simp only [apply, edit, OrderedMap.get_keep]
    by_cases h : pre <+: k <;> simp [h]

theorem ByteBatch.get_fold (s : ByteStore) (batch : ByteBatch) (k : Bytes) :
    (batch.fold s).get k = (OrderedMap.leaves ByteOp.edit batch k).getD (s.get k) :=
  OrderedMap.get_foldl ByteOp.get_apply batch s k

/-- A batch folded in twice leaves what it leaves once. -/
theorem ByteBatch.fold_fold (s : ByteStore) (batch : ByteBatch) :
    batch.fold (batch.fold s) = batch.fold s := by
  apply OrderedMap.ext_get
  intro k
  rw [get_fold, get_fold]
  cases OrderedMap.leaves ByteOp.edit batch k <;> rfl

/-- Nothing below a prefix starts with it, so the range loses nothing. -/
theorem Redb.applyOp_eq (table : ByteStore) (op : ByteOp) : applyOp table op = op.apply table := by
  cases op with
  | put key value => rfl
  | delete key => rfl
  | deletePrefix pre =>
    rw [applyOp, retainIn, ByteOp.apply]
    congr 1
    funext k
    by_cases h : pre ≤ k
    · simp [h]
    · have not : ¬ pre <+: k := fun hp => h (Bytes.prefix_le hp)
      simp [h, not]

/-- `RedbEngine::apply` is the fold. -/
theorem Redb.apply_eq (db : ByteStore) (batch : ByteBatch) : apply db batch = batch.fold db := by
  cases batch with
  | nil => rfl
  | cons op batch =>
    rw [apply, if_neg (by simp), ByteBatch.fold]
    congr 1
    funext table op
    exact applyOp_eq table op

namespace Rocks

theorem RocksOp.get_run (s : ByteStore) (op : RocksOp) (k : Bytes) :
    (op.run s).get k = (op.edit k).getD (s.get k) := by
  cases op with
  | put key value =>
    simp only [run, edit, OrderedMap.get_insert]
    split <;> rfl
  | delete key =>
    simp only [run, edit, OrderedMap.get_erase]
    split <;> rfl
  | deleteRange start end_ =>
    simp only [run, edit, OrderedMap.get_keep]
    by_cases h : start ≤ k ∧ k < end_ <;> simp [h]

/-- The enumeration lists the stored keys under the prefix. -/
theorem mem_enumerate {db : ByteStore} {pre k : Bytes} :
    k ∈ enumerate db pre ↔ pre <+: k ∧ (db.get k).isSome := by
  have sought : rawIterator id db.entries { iterateUpperBound := none, prefixSameAsStart := false }
      pre = db.entries.filter fun e => !decide (e.1 < pre) := by
    rw [rawIterator, List.takeWhile_eq_self_iff.mpr (by simp),
      List.takeWhile_eq_self_iff.mpr (by simp), OrderedMap.dropWhile_eq_filter]
    · rfl
    · refine db.sorted.imp ?_
      intro a b hab hb
      simp only [id_eq, decide_eq_true_eq] at hb ⊢
      exact lt_trans hab hb
  -- above the prefix, the keys that start with it come first
  have taken : ((db.entries.filter fun e => !decide (e.1 < pre)).takeWhile
      fun e => decide (pre <+: e.1)) =
      (db.entries.filter fun e => !decide (e.1 < pre)).filter fun e => decide (pre <+: e.1) := by
    apply OrderedMap.takeWhile_eq_filter
    refine (List.Pairwise.and_mem.mp (db.sorted.filter _)).imp ?_
    rintro a b ⟨ha, -, hab⟩ hb
    have above : pre ≤ a.1 := by simpa using (List.mem_filter.mp ha).2
    simp only [decide_eq_true_eq] at hb ⊢
    exact Bytes.startsWith_convex List.prefix_rfl hb above (le_of_lt hab)
  rw [enumerate, sought, taken, List.filter_filter, List.mem_map, Option.isSome_iff_exists]
  constructor
  · rintro ⟨⟨k, v⟩, mem, rfl⟩
    obtain ⟨stored, test⟩ := List.mem_filter.mp mem
    exact ⟨of_decide_eq_true ((Bool.and_eq_true _ _).mp test).1, v,
      OrderedMap.get_eq_some.mpr stored⟩
  · rintro ⟨hp, v, hv⟩
    refine ⟨(k, v), List.mem_filter.mpr ⟨OrderedMap.get_eq_some.mp hv, ?_⟩, rfl⟩
    have above : ¬ k < pre := not_lt.mpr (Bytes.prefix_le hp)
    simp [hp, above]

theorem leaves_deletes (keys : List Bytes) (k : Bytes) :
    OrderedMap.leaves RocksOp.edit (keys.map .delete) k =
      if k ∈ keys then some none else none := by
  induction keys with
  | nil => rfl
  | cons x keys ih =>
    rw [List.map_cons, OrderedMap.leaves, ih, RocksOp.edit]
    by_cases hk : k ∈ keys
    · simp [hk]
    · by_cases hx : x = k
      · subst hx
        simp [hk]
      · simp [hk, hx, Ne.symm hx]

/-- What the operation leaves at a key when RocksDB runs it: a prefix without
a successor reaches the keys already in the database alone. -/
def edit (db : ByteStore) (op : ByteOp) (k : Bytes) : Option (Option Bytes) :=
  if op.unbounded = true ∧ db.get k = none then none else op.edit k

theorem leaves_rocksOps (db : ByteStore) (op : ByteOp) (k : Bytes) :
    OrderedMap.leaves RocksOp.edit (rocksOps db op) k = edit db op k := by
  cases op with
  | put key value => simp [rocksOps, OrderedMap.leaves, RocksOp.edit, edit, ByteOp.edit,
      ByteOp.unbounded]
  | delete key => simp [rocksOps, OrderedMap.leaves, RocksOp.edit, edit, ByteOp.edit,
      ByteOp.unbounded]
  | deletePrefix pre =>
    rw [rocksOps, edit, ByteOp.unbounded, ByteOp.edit]
    cases hs : prefixSuccessor pre with
    | some bound =>
      have range := inDeleteRange_eq pre k
      simp only [inDeleteRange, hs, decide_eq_decide] at range
      simp [OrderedMap.leaves, RocksOp.edit, range]
    | none =>
      rw [leaves_deletes]
      by_cases hp : pre <+: k <;> cases hk : db.get k <;> simp [mem_enumerate, hp, hk]

theorem get_apply (db : ByteStore) (batch : ByteBatch) (k : Bytes) :
    (apply db batch).get k = (OrderedMap.leaves (edit db) batch k).getD (db.get k) := by
  cases batch with
  | nil => rfl
  | cons op batch =>
    rw [apply, if_neg (by simp), OrderedMap.get_foldl RocksOp.get_run, OrderedMap.leaves_flatMap]
    congr 1
    exact OrderedMap.leaves_congr fun op _ => leaves_rocksOps db op k

end Rocks

/-! ## Where RocksDB agrees -/

/-- No operation puts a key that is left to a prefix delete without a successor:
one that follows the put, with no other operation on the key after the put. -/
def ByteBatch.settled : ByteBatch → Bool
  | [] => true
  | .put key _ :: post =>
    (!post.any (fun op => op.unbounded && op.touches key) ||
      post.any fun op => !op.unbounded && op.touches key) && settled post
  | _ :: post => settled post

namespace ByteOp

theorem edit_of_unbounded {op : ByteOp} {k : Bytes} (h : op.unbounded = true)
    (ht : op.touches k = true) : op.edit k = some none := by
  cases op with
  | put key value => cases h
  | delete key => cases h
  | deletePrefix pre =>
    rw [touches, edit] at ht
    rw [edit]
    split at ht
    · rename_i hp
      rw [if_pos hp]
    · cases ht

end ByteOp

namespace Rocks

theorem edit_stored {db : ByteStore} {k : Bytes} (h : db.get k ≠ none) (op : ByteOp) :
    edit db op k = op.edit k := by
  rw [edit, if_neg (by simp [h])]

theorem edit_unbounded {db : ByteStore} {op : ByteOp} {k : Bytes} (h : db.get k = none)
    (hu : op.unbounded = true) : edit db op k = none := by
  rw [edit, if_pos ⟨hu, h⟩]

theorem edit_bounded {db : ByteStore} {op : ByteOp} {k : Bytes} (hu : op.unbounded = false) :
    edit db op k = op.edit k := by
  rw [edit, if_neg (by simp [hu])]

/-- At a key the database lacks, RocksDB leaves nothing exactly where the
operations that reach it are the prefix deletes without a successor. -/
theorem leaves_edit_eq_none {db : ByteStore} {k : Bytes} (h : db.get k = none)
    {batch : ByteBatch} : OrderedMap.leaves (edit db) batch k = none ↔
      batch.any (fun op => !op.unbounded && op.touches k) = false := by
  rw [OrderedMap.leaves_eq_none, List.any_eq_false]
  refine forall₂_congr fun op _ => ?_
  cases hu : op.unbounded with
  | true => simp [edit_unbounded h hu]
  | false => simp [edit_bounded hu, ByteOp.touches]

theorem untouched_of_any {batch : ByteBatch} {k : Bytes}
    (hu : batch.any (fun op => op.unbounded && op.touches k) = false)
    (hb : batch.any (fun op => !op.unbounded && op.touches k) = false) :
    OrderedMap.leaves ByteOp.edit batch k = none := by
  rw [OrderedMap.leaves_eq_none]
  intro op hop
  have hu := List.any_eq_false.mp hu op hop
  have hb := List.any_eq_false.mp hb op hop
  cases h : op.unbounded <;> simp_all [ByteOp.touches]

/-- On a settled batch RocksDB leaves what the fold does. -/
theorem leaves_edit_of_settled {db : ByteStore} {k : Bytes} (h : db.get k = none)
    {batch : ByteBatch} (hs : batch.settled = true) :
    (OrderedMap.leaves (edit db) batch k).getD none =
      (OrderedMap.leaves ByteOp.edit batch k).getD none := by
  induction batch with
  | nil => rfl
  | cons op batch ih =>
    have tail : ByteBatch.settled batch = true := by
      cases op with
      | put key value => exact ((Bool.and_eq_true _ _).mp hs).2
      | delete key => exact hs
      | deletePrefix pre => exact hs
    have ih := ih tail
    rw [OrderedMap.leaves, OrderedMap.leaves]
    cases hfold : OrderedMap.leaves ByteOp.edit batch k with
    | none =>
      -- nothing after the operation touches the key
      have untouched := OrderedMap.leaves_eq_none.mp hfold
      have hrocks : OrderedMap.leaves (edit db) batch k = none := by
        rw [leaves_edit_eq_none h, List.any_eq_false]
        intro op hop
        simp [ByteOp.touches, untouched op hop]
      rw [hrocks, Option.none_or, Option.none_or]
      cases hu : op.unbounded with
      | false => rw [edit_bounded hu]
      | true =>
        rw [edit_unbounded h hu]
        cases ht : op.touches k with
        | false =>
          have same : op.edit k = none := by simpa [ByteOp.touches] using ht
          rw [same]
        | true => rw [ByteOp.edit_of_unbounded hu ht]; rfl
    | some r =>
      cases hrocks : OrderedMap.leaves (edit db) batch k with
      | some r' =>
        rw [hfold, hrocks] at ih
        exact ih
      | none =>
        -- only prefix deletes without a successor reach the key after the operation
        rw [hfold, hrocks] at ih
        rw [Option.none_or, Option.some_or, ← ih]
        have reached := (leaves_edit_eq_none h).mp hrocks
        cases op with
        | put key value =>
          by_cases hk : key = k
          · subst hk
            have kept := ((Bool.and_eq_true _ _).mp hs).1
            rw [reached, Bool.or_false, Bool.not_eq_true'] at kept
            have untouched := untouched_of_any kept reached
            rw [hfold] at untouched
            cases untouched
          · simp [edit, ByteOp.edit, hk]
        | delete key =>
          rw [edit, ByteOp.edit]
          split
          · rfl
          · split <;> rfl
        | deletePrefix pre =>
          rw [edit, ByteOp.edit]
          split
          · rfl
          · split <;> rfl

/-- A batch that is not settled has a key it leaves deleted and that RocksDB
leaves put, where the database lacks it. -/
theorem exists_of_not_settled {batch : ByteBatch} (hs : batch.settled = false) :
    ∃ k v, OrderedMap.leaves ByteOp.edit batch k = some none ∧
      ∀ db : ByteStore, db.get k = none → OrderedMap.leaves (edit db) batch k = some (some v) := by
  induction batch with
  | nil => cases hs
  | cons op batch ih =>
    -- a fault in the tail is not mended by an operation before it
    have extend : ByteBatch.settled batch = false → ∃ k v,
        OrderedMap.leaves ByteOp.edit (op :: batch) k = some none ∧ ∀ db : ByteStore,
          db.get k = none → OrderedMap.leaves (edit db) (op :: batch) k = some (some v) := by
      intro tail
      obtain ⟨k, v, deleted, put⟩ := ih tail
      refine ⟨k, v, ?_, ?_⟩
      · rw [OrderedMap.leaves, deleted, Option.some_or]
      · intro db h
        rw [OrderedMap.leaves, put db h, Option.some_or]
    cases op with
    | delete key => exact extend hs
    | deletePrefix pre => exact extend hs
    | put key value =>
      cases tail : ByteBatch.settled batch with
      | false => exact extend tail
      | true =>
        rw [ByteBatch.settled, tail, Bool.and_true, Bool.or_eq_false_iff, Bool.not_eq_false'] at hs
        obtain ⟨left, alone⟩ := hs
        refine ⟨key, value, ?_, ?_⟩
        · obtain ⟨last, hlast, test⟩ := List.any_eq_true.mp left
          have touched := ((Bool.and_eq_true _ _).mp test).2
          cases hfold : OrderedMap.leaves ByteOp.edit batch key with
          | none =>
            rw [ByteOp.touches, OrderedMap.leaves_eq_none.mp hfold last hlast] at touched
            cases touched
          | some r =>
            obtain ⟨op, hop, hr⟩ := OrderedMap.exists_of_leaves hfold
            have touches : op.touches key = true := by rw [ByteOp.touches, hr]; rfl
            have unbounded : op.unbounded = true := by
              have := List.any_eq_false.mp alone op hop
              simpa [touches] using this
            rw [ByteOp.edit_of_unbounded unbounded touches] at hr
            rw [OrderedMap.leaves, hfold, ← hr, Option.some_or]
        · intro db h
          rw [OrderedMap.leaves, (leaves_edit_eq_none h).mpr alone, Option.none_or]
          simp [edit, ByteOp.unbounded, ByteOp.edit]

end Rocks

/-- On a settled batch RocksDB does what the fold does. -/
theorem Rocks.apply_of_settled {batch : ByteBatch} (hs : batch.settled = true) (s : ByteStore) :
    apply s batch = batch.fold s := by
  apply OrderedMap.ext_get
  intro k
  rw [get_apply, ByteBatch.get_fold]
  cases hk : s.get k with
  | none => exact leaves_edit_of_settled hk hs
  | some v =>
    rw [OrderedMap.leaves_congr fun op _ => edit_stored (by simp [hk]) op]

/-- The engines apply a batch alike, and once is as good as twice, exactly when
no put of the batch is left to a prefix delete without a successor. -/
theorem engines_agree_iff (s : ByteStore) (batch : ByteBatch) :
    (Rocks.apply s batch = batch.fold s ∧ Redb.apply s batch = batch.fold s ∧
        Rocks.apply (Rocks.apply s batch) batch = Rocks.apply s batch ∧
        Redb.apply (Redb.apply s batch) batch = Redb.apply s batch) ↔
      batch.settled = true := by
  constructor
  · rintro ⟨rocks, -, twice, -⟩
    cases hs : batch.settled with
    | true => rfl
    | false =>
      obtain ⟨k, v, deleted, put⟩ := Rocks.exists_of_not_settled hs
      have gone : (batch.fold s).get k = none := by
        rw [ByteBatch.get_fold, deleted]
        rfl
      -- the first run deletes the key or the second puts it back
      rw [rocks] at twice
      have again := congrArg (fun m => m.get k) twice
      rw [Rocks.get_apply, put _ gone, gone] at again
      cases again
  · intro hs
    have rocks := Rocks.apply_of_settled hs
    refine ⟨rocks s, Redb.apply_eq s batch, ?_, ?_⟩
    · rw [rocks, rocks, ByteBatch.fold_fold]
    · rw [Redb.apply_eq, Redb.apply_eq, ByteBatch.fold_fold]

/-- Over an empty database, a put followed by the delete of a prefix of `0xff`
that covers it: RocksDB keeps what the fold and redb delete. -/
theorem engines_disagree :
    let batch : ByteBatch := [.put [255] [7], .deletePrefix [255]]
    Rocks.apply ∅ batch ≠ batch.fold ∅ ∧ Redb.apply ∅ batch = batch.fold ∅ ∧
      Rocks.apply (Rocks.apply ∅ batch) batch ≠ Rocks.apply ∅ batch := by
  intro batch
  decide

/-! ## The registry's batches

A scan prefix of the schema has a successor, so the two engines apply what the
registry writes alike, and as `Store.apply` does.
-/

/-- The operation in bytes, its record encoded. -/
def MetaOp.bytes (enc : Value → Bytes) : MetaOp → ByteOp
  | put key value _ => .put key.bytes (enc value)
  | delete key => .delete key.bytes
  | deletePrefix pre => .deletePrefix pre.bytes

theorem Key.bytes_strictMono : StrictMono Key.bytes := fun _ _ lt => lt

/-- The bindings in bytes, their records encoded. -/
def Store.bytes (enc : Value → Bytes) (s : Store) : ByteStore :=
  s.map.image Key.bytes Key.bytes_strictMono enc

/-- A byte below `0xff` anywhere gives a prefix a successor. -/
theorem Rocks.prefixSuccessor_cons {b : Byte} (h : b < 255) (rest : Bytes) :
    (prefixSuccessor (b :: rest)).isSome = true := by
  induction rest using List.reverseRecOn with
  | nil =>
    rw [show [b] = [] ++ [b] from rfl, prefixSuccessor_concat, if_pos h]
    rfl
  | append_singleton rest c ih =>
    rw [← List.cons_append, prefixSuccessor_concat]
    split
    · rfl
    · exact ih

theorem Scan.prefixSuccessor_isSome (p : Scan) :
    (Rocks.prefixSuccessor p.bytes).isSome = true := by
  cases p <;> exact Rocks.prefixSuccessor_cons (by decide) _

theorem settled_of_bounded {batch : ByteBatch} (h : ∀ op ∈ batch, op.unbounded = false) :
    batch.settled = true := by
  induction batch with
  | nil => rfl
  | cons op batch ih =>
    have tail := ih fun op hop => h op (List.mem_cons_of_mem _ hop)
    cases op with
    | delete key => exact tail
    | deletePrefix pre => exact tail
    | put key value =>
      have none_left : batch.any (fun op => op.unbounded && op.touches key) = false := by
        rw [List.any_eq_false]
        intro op hop
        simp [h op (List.mem_cons_of_mem _ hop)]
      rw [ByteBatch.settled, none_left]
      simpa using tail

namespace Store
variable (enc : Value → Bytes)

theorem get_bytes (s : Store) (k : Key) : (s.bytes enc).get k.bytes = (s.get k).map enc :=
  OrderedMap.get_image k

/-- Bytes that are no key of the schema have no binding. -/
theorem get_bytes_none (s : Store) {k' : Bytes} (h : ∀ k : Key, k.bytes ≠ k') :
    (s.bytes enc).get k' = none := by
  rw [Option.eq_none_iff_forall_not_mem]
  intro v' hv
  obtain ⟨k, v, -, hk, -⟩ := OrderedMap.mem_image.mp hv
  exact h k hk

theorem edit_bytes (op : MetaOp) (k : Key) :
    (op.bytes enc).edit k.bytes = (op.effect k).map (Option.map enc) := by
  cases op with
  | put key value fits =>
    simp only [MetaOp.bytes, ByteOp.edit, MetaOp.effect, Key.bytes_injective.eq_iff]
    split <;> rfl
  | delete key =>
    simp only [MetaOp.bytes, ByteOp.edit, MetaOp.effect, Key.bytes_injective.eq_iff]
    split <;> rfl
  | deletePrefix pre =>
    simp only [MetaOp.bytes, ByteOp.edit, MetaOp.effect, ← Scan.bytes_prefix_iff]
    split <;> rfl

theorem bytes_applyOp (s : Store) (op : MetaOp) :
    (s.applyOp op).bytes enc = (op.bytes enc).apply (s.bytes enc) := by
  apply OrderedMap.ext_get
  intro k'
  rw [ByteOp.get_apply]
  by_cases hk : ∃ k : Key, k.bytes = k'
  · obtain ⟨k, rfl⟩ := hk
    rw [get_bytes, get_applyOp, get_bytes, edit_bytes]
    cases op.effect k <;> rfl
  · rw [not_exists] at hk
    rw [get_bytes_none enc _ hk, get_bytes_none enc _ hk]
    cases op with
    | put key value fits => simp [MetaOp.bytes, ByteOp.edit, hk key]
    | delete key => simp [MetaOp.bytes, ByteOp.edit, hk key]
    | deletePrefix pre =>
      simp only [MetaOp.bytes, ByteOp.edit]
      split <;> rfl

theorem bytes_fold (s : Store) (batch : WriteBatch) :
    (s.apply batch).bytes enc = ByteBatch.fold (s.bytes enc) (batch.map (MetaOp.bytes enc)) := by
  induction batch generalizing s with
  | nil => rfl
  | cons op batch ih =>
    rw [List.map_cons, ByteBatch.fold, List.foldl_cons, ← bytes_applyOp]
    exact ih (s.applyOp op)

/-- What a batch of the registry does to the store, either engine does to its bytes. -/
theorem bytes_apply (s : Store) (batch : WriteBatch) :
    (s.apply batch).bytes enc = Rocks.apply (s.bytes enc) (batch.map (MetaOp.bytes enc)) ∧
      (s.apply batch).bytes enc = Redb.apply (s.bytes enc) (batch.map (MetaOp.bytes enc)) := by
  have settled : ByteBatch.settled (batch.map (MetaOp.bytes enc)) = true := by
    apply settled_of_bounded
    intro op hop
    obtain ⟨op, -, rfl⟩ := List.mem_map.mp hop
    cases op with
    | put key value fits => rfl
    | delete key => rfl
    | deletePrefix pre =>
      have := Scan.prefixSuccessor_isSome pre
      simpa [MetaOp.bytes, ByteOp.unbounded, Option.isSome_iff_ne_none] using this
  rw [Redb.apply_eq, Rocks.apply_of_settled settled, bytes_fold]
  exact ⟨rfl, rfl⟩

end Store

end Summ
