import MiniRedis.Model.Heap
import MiniRedis.Model.Serialize
import MiniRedis.Model.SortedSet

/-! # `storage/commands.cpp` and the command handlers of `storage/sorted_set.cpp`

The server state and the request handlers. An `Entry` is known by its address; the `heap_idx` field
of every entry is kept with the heap that writes to it. What happens to entries after they leave the
database is recorded: `freed` are those deleted in place, `queue` those handed to the thread pool. The
clock is read at most once in a request, and its reading is an argument. -/

namespace MiniRedis

inductive ValueType where
  | init
  | str
  | zset
  deriving DecidableEq, Repr

/-- The address of an `Entry`. -/
abbrev EPtr := Nat

/-- The fields of an `Entry` other than the link of its hash node and `heap_idx`. -/
structure Entry where
  hashCode : UInt64 := 0
  key : Bytes := []
  type : ValueType := .init
  value : Bytes := []
  zset : ZSet Double

instance : Inhabited Double := ⟨0, rfl⟩

/-- What `process_timers` complains about on `stderr`. -/
inductive Warning where
  | entryRemoved (key : Bytes)
  | nodeMismatch (key : Bytes)
  deriving DecidableEq, Repr

/-- The part of `ServerData` that holds the keys. -/
structure ServerData where
  db : HMap EPtr := {}
  heap : Heap EPtr := { items := [], idx := fun _ => sizeMax }
  entries : EPtr → Entry := fun _ => { zset := .empty }
  next : Nat := 0
  freed : List EPtr := []
  queue : List EPtr := []
  warnings : List Warning := []

/-- `new Entry()` with the given fields. The address names the allocation: where the source uses the block
of a freed entry again, this is another address. An entry takes more than one address, so not every
address can be that of an entry. -/
def entryNew (s : ServerData) (type : ValueType) (key value : Bytes) : Result (EPtr × ServerData) :=
  let p := s.next
  if p < sizeMax then
    return (p, { s with
      next := p + 1
      heap := s.heap.setIdx p sizeMax
      entries := Function.update s.entries p
        { hashCode := stringHash key, key, type, value, zset := .empty } })
  else .error .badAlloc

/-- Compare an entry with a key. -/
def entryEquals (s : ServerData) (p : EPtr) (key : Bytes) : Bool := (s.entries p).key == key

/-- `hm_lookup(&server_data.db, ...)` for a key. -/
def dbLookup (s : ServerData) (key : Bytes) : Result (Option EPtr × ServerData) := do
  let (node, db) ← hmLookup s.db { ref := key, hashCode := stringHash key } (entryEquals s)
  return (node.map (·.ref), { s with db })

/-- `hm_insert(&server_data.db, ...)` for an entry. -/
def dbInsert (s : ServerData) (p : EPtr) : Result ServerData := do
  let db ← hmInsert s.db { ref := p, hashCode := (s.entries p).hashCode }
  return { s with db }

/-- Set or remove the TTL on an entry. -/
def entrySetTtl (now : UInt64) (s : ServerData) (p : EPtr) (ttlMs : Int) : Result ServerData :=
  if ttlMs < 0 ∧ s.heap.idx p ≠ sizeMax then do
    let heap ← s.heap.heapDelete (s.heap.idx p)
    return { s with heap := heap.setIdx p sizeMax }
  else if 0 ≤ ttlMs then do
    let expiresAt := now + UInt64.ofNat ttlMs.toNat
    let heap ← s.heap.heapUpsert (s.heap.idx p) { val := expiresAt, ref := p }
    return { s with heap }
  else
    return s

/-- Free an entry in place. -/
def entryDelSync (s : ServerData) (p : EPtr) : Result ServerData := do
  if (s.entries p).type = .zset then
    let zset ← zsetClear (s.entries p).zset
    return { s with
      entries := Function.update s.entries p { s.entries p with zset }
      freed := s.freed ++ [p] }
  else
    return { s with freed := s.freed ++ [p] }

def kLargeContainerSize : Nat := 1000

/-- Unlink an entry from the heap and free it, large sets in the thread pool. -/
def entryDel (now : UInt64) (s : ServerData) (p : EPtr) : Result ServerData := do
  let s ← entrySetTtl now s p (-1)
  let sz := if (s.entries p).type = .zset then hmSize (s.entries p).zset.hmap else 0
  if sz > kLargeContainerSize then return { s with queue := s.queue ++ [p] }
  else entryDelSync s p

/-! ## Strings, deletion and expiry -/

def setKey (s : ServerData) (key value : Bytes) (resp : Bytes) : Result (ServerData × Bytes) := do
  match ← dbLookup s key with
  | (some p, s) =>
    let entries := Function.update s.entries p { s.entries p with value }
    return ({ s with entries }, outNil resp)
  | (none, s) =>
    let (p, s) ← entryNew s .init key value
    return (← dbInsert s p, outNil resp)

def getKey (s : ServerData) (key : Bytes) (resp : Bytes) : Result (ServerData × Bytes) := do
  match ← dbLookup s key with
  | (none, s) => return (s, outNil resp)
  | (some p, s) =>
    let val := (s.entries p).value
    assert (val.length ≤ kMaxMsg) .getKeyValSize
    return (s, outStr resp val)

def delKey (now : UInt64) (s : ServerData) (key : Bytes) (resp : Bytes) :
    Result (ServerData × Bytes) := do
  let (node, db) ← hmDelete s.db { ref := key, hashCode := stringHash key } (entryEquals s)
  match node with
  | some node => return (← entryDel now { s with db } node.ref, outInt resp 1)
  | none => return ({ s with db }, outInt resp 0)

def setTtlMs (now : UInt64) (s : ServerData) (key ttl : Bytes) (out : Bytes) :
    Result (ServerData × Bytes) :=
  match str2int ttl with
  | none => return (s, outErr out errBadArg (ascii ['e', 'x', 'p', 'e', 'c', 't', ' ', 'i', 'n', 't']))
  | some ttlMs => do
    match ← dbLookup s key with
    | (some p, s) => return (← entrySetTtl now s p ttlMs, outInt out 1)
    | (none, s) => return (s, outInt out 0)

def getTtlMs (now : UInt64) (s : ServerData) (key : Bytes) (out : Bytes) :
    Result (ServerData × Bytes) := do
  match ← dbLookup s key with
  | (none, s) => return (s, outInt out (-2))
  | (some p, s) =>
    if s.heap.idx p = sizeMax then return (s, outInt out (-1))
    else
      let item ← index s.heap.items (s.heap.idx p)
      return (s, outInt out (if item.val > now then (item.val - now).toInt64 else 0))

/-- The callback of `keys`. -/
def cbKeys (s : ServerData) (node : HNode EPtr) (resp : Bytes) : Bool × Bytes :=
  let entry := s.entries node.ref
  (true, outStr resp (entry.key ++ ascii [' ', ':', ' '] ++ entry.value))

def allKeys (s : ServerData) (resp : Bytes) : Result (ServerData × Bytes) := do
  let resp := outArr resp (.ofNat (hmSize s.db))
  return (s, ← hmForeach s.db (cbKeys s) resp)

/-! ## Sorted sets -/

/-- The set that a command works on: an existing one, the empty set of a missing key, or none for a
key of another type. -/
inductive ExpectedZSet where
  | entry (p : EPtr)
  | missing
  | badType

def expectZset (s : ServerData) (key : Bytes) : Result (ExpectedZSet × ServerData) := do
  match ← dbLookup s key with
  | (none, s) => return (.missing, s)
  | (some p, s) => return (if (s.entries p).type = .zset then .entry p else .badType, s)

/-- The entry that `zadd` works on, created if the key is missing. -/
def zaddEntry (s : ServerData) (key : Bytes) : Result (Option EPtr × ServerData) := do
  match ← dbLookup s key with
  | (none, s) =>
    let (p, s) ← entryNew s .zset key []
    return (some p, ← dbInsert s p)
  | (some p, s) => return (if (s.entries p).type = .zset then some p else none, s)

/-- Store the set of an entry. -/
def ServerData.setZset (s : ServerData) (p : EPtr) (zset : ZSet Double) : ServerData :=
  { s with entries := Function.update s.entries p { s.entries p with zset } }

def expectZsetText : Bytes := ascii ['e', 'x', 'p', 'e', 'c', 't', ' ', 'z', 's', 'e', 't']

def zcmdAdd (s : ServerData) (key score name : Bytes) (resp : Bytes) :
    Result (ServerData × Bytes) :=
  match str2dbl score with
  | none =>
    return (s, outErr resp errBadArg
      (ascii ['e', 'x', 'p', 'e', 'c', 't', ' ', 'f', 'l', 'o', 'a', 't']))
  | some score => do
    match ← zaddEntry s key with
    | (none, s) => return (s, outErr resp errBadTyp expectZsetText)
    | (some p, s) =>
      let (added, zset) ← zsetInsert (s.entries p).zset name score
      return (s.setZset p zset, outInt resp (if added then 1 else 0))

def zcmdRemove (s : ServerData) (key name : Bytes) (resp : Bytes) : Result (ServerData × Bytes) := do
  match ← expectZset s key with
  | (.badType, s) => return (s, outErr resp errBadTyp expectZsetText)
  | (.missing, s) =>
    let (znode, _) ← zsetLookup (ZSet.empty : ZSet Double) name
    return (s, outInt resp (if znode.isSome then 1 else 0))
  | (.entry p, s) =>
    match ← zsetLookup (s.entries p).zset name with
    | (some znode, zset) => return (s.setZset p (← zsetDelete zset znode), outInt resp 1)
    | (none, zset) => return (s.setZset p zset, outInt resp 0)

def zcmdScore (s : ServerData) (key name : Bytes) (resp : Bytes) : Result (ServerData × Bytes) := do
  match ← expectZset s key with
  | (.badType, s) => return (s, outErr resp errBadTyp expectZsetText)
  | (.missing, s) =>
    match ← zsetLookup (ZSet.empty : ZSet Double) name with
    | (some znode, zset) => return (s, outDbl resp (zset.node znode).score.bits)
    | (none, _) => return (s, outNil resp)
  | (.entry p, s) =>
    match ← zsetLookup (s.entries p).zset name with
    | (some znode, zset) => return (s.setZset p zset, outDbl resp (zset.node znode).score.bits)
    | (none, zset) => return (s.setZset p zset, outNil resp)

/-- The loop that counts: the final `n`, which grows by two for each node. -/
def queryCount (zset : ZSet Double) (limit : Nat) :
    (fuel : Nat) → (iter : Option ZPtr) → (n : Nat) → Result Nat
  | 0, _, _ => .error .diverges
  | _ + 1, none, n => return n
  | fuel + 1, some iter, n =>
    if n < limit then do queryCount zset limit fuel (← znodeOffset zset iter 1) (n + 2)
    else return n

/-- The loop that writes the pairs; its counter `i` is a `uint32_t`. -/
def queryOutput (zset : ZSet Double) (n : Nat) :
    (fuel : Nat) → (i : UInt32) → (znode : Option ZPtr) → (resp : Bytes) → Result Bytes
  | 0, _, _, _ => .error .diverges
  | _ + 1, _, none, resp => return resp
  | fuel + 1, i, some znode, resp =>
    if i.toNat < n / 2 then do
      let resp := outStr resp (zset.node znode).name
      let resp := outDbl resp (zset.node znode).score.bits
      queryOutput zset n fuel (i + 1) (← znodeOffset zset znode 1) resp
    else return resp

/-- The part of `zquery` that reads a set. -/
def queryZset (zset : ZSet Double) (score : Double) (name : Bytes) (offset limit : Int)
    (resp : Bytes) : Result Bytes := do
  if limit ≤ 0 then return outArr resp 0
  else
    match ← zsetSeekGreaterEqual zset score name with
    | none => return outArr resp 0
    | some znode =>
      match ← znodeOffset zset znode offset with
      | none => return outArr resp 0
      | some znode =>
        let n ← queryCount zset limit.toNat addressSpace (some znode) 0
        let resp := outArr resp (.ofNat n)
        queryOutput zset n addressSpace 0 (some znode) resp

def zcmdQuery (s : ServerData) (key score name offset limit : Bytes) (resp : Bytes) :
    Result (ServerData × Bytes) :=
  match str2dbl score with
  | none =>
    return (s, outErr resp errBadArg (ascii
      ['e', 'x', 'p', 'e', 'c', 't', ' ', 'f', 'p', ' ', 'n', 'u', 'm', 'b', 'e', 'r']))
  | some score =>
    match str2int offset, str2int limit with
    | some offset, some limit => do
      match ← expectZset s key with
      | (.badType, s) => return (s, outErr resp errBadTyp expectZsetText)
      | (.missing, s) => return (s, ← queryZset .empty score name offset limit resp)
      | (.entry p, s) => return (s, ← queryZset (s.entries p).zset score name offset limit resp)
    | _, _ =>
      return (s, outErr resp errBadArg (ascii ['e', 'x', 'p', 'e', 'c', 't', ' ', 'i', 'n', 't']))

/-! ## Dispatch -/

/-- The requests that the server knows. -/
inductive Request where
  | ping
  | get (key : Bytes)
  | set (key value : Bytes)
  | del (key : Bytes)
  | keys
  | zadd (key score name : Bytes)
  | zrem (key name : Bytes)
  | zscore (key name : Bytes)
  | zquery (key score name offset limit : Bytes)
  | pttl (key : Bytes)
  | pexpire (key ttl : Bytes)
  | unknown
  deriving DecidableEq, Repr

/-- The case distinction of `run_request`: the number of words and the first of them. -/
def Request.ofCmd (cmd : List Bytes) : Request :=
  match cmd with
  | [c] =>
    if c = ascii ['p', 'i', 'n', 'g'] then .ping
    else if c = ascii ['k', 'e', 'y', 's'] then .keys
    else .unknown
  | [c, key] =>
    if c = ascii ['g', 'e', 't'] then .get key
    else if c = ascii ['d', 'e', 'l'] then .del key
    else if c = ascii ['p', 't', 't', 'l'] then .pttl key
    else .unknown
  | [c, key, arg] =>
    if c = ascii ['s', 'e', 't'] then .set key arg
    else if c = ascii ['z', 'r', 'e', 'm'] then .zrem key arg
    else if c = ascii ['z', 's', 'c', 'o', 'r', 'e'] then .zscore key arg
    else if c = ascii ['p', 'e', 'x', 'p', 'i', 'r', 'e'] then .pexpire key arg
    else .unknown
  | [c, key, score, name] =>
    if c = ascii ['z', 'a', 'd', 'd'] then .zadd key score name else .unknown
  | [c, key, score, name, offset, limit] =>
    if c = ascii ['z', 'q', 'u', 'e', 'r', 'y'] then .zquery key score name offset limit else .unknown
  | _ => .unknown

/-- Run one request. -/
def runRequest (now : UInt64) (s : ServerData) (cmd : List Bytes) (resp : Bytes) :
    Result (ServerData × Bytes) :=
  match Request.ofCmd cmd with
  | .ping => return (s, outStr resp (ascii ['p', 'o', 'n', 'g']))
  | .get key => getKey s key resp
  | .set key value => setKey s key value resp
  | .del key => delKey now s key resp
  | .keys => allKeys s resp
  | .zadd key score name => zcmdAdd s key score name resp
  | .zrem key name => zcmdRemove s key name resp
  | .zscore key name => zcmdScore s key name resp
  | .zquery key score name offset limit => zcmdQuery s key score name offset limit resp
  | .pttl key => getTtlMs now s key resp
  | .pexpire key ttl => setTtlMs now s key ttl resp
  | .unknown =>
    return (s, outErr resp errUnknown (ascii
      ['u', 'n', 'k', 'n', 'o', 'w', 'n', ' ', 'c', 'o', 'm', 'm', 'a', 'n', 'd']))

/-! ## Expiry (`core/sys_server.cpp`) -/

/-- `hnode_same` -/
def hnodeSame (node key : EPtr) : Bool := node == key

/-- The loop of `process_timers` over the deadlines that are due. -/
def expireLoop (now : UInt64) : (works : Nat) → ServerData → Result ServerData
  | 0, s => return s
  | works + 1, s =>
    match s.heap.items with
    | [] => return s
    | top :: _ =>
      if top.val ≤ now then do
        let p := top.ref
        let heap ← s.heap.heapDelete 0
        let s := { s with heap := heap.setIdx p sizeMax }
        let key := { ref := p, hashCode := (s.entries p).hashCode }
        let (node, db) ← hmDelete s.db key hnodeSame
        let s := { s with db }
        let s := match node with
          | none => { s with warnings := s.warnings ++ [.entryRemoved (s.entries p).key] }
          | some node =>
            if node.ref = p then s
            else { s with warnings := s.warnings ++ [.nodeMismatch (s.entries p).key] }
        expireLoop now works (← entryDel now s p)
      else return s

/-- The second half of `process_timers`: delete at most `kMaxWorks` expired keys. -/
def expireKeys (now : UInt64) (s : ServerData) : Result ServerData := expireLoop now kMaxWorks s

end MiniRedis
