import Pmgd.Lib.ThrowingState
import Pmgd.Lib.UndoLog
import Pmgd.PropertyCodec

/-!
# Property lists

A property list is a chain of chunks with entries of 1 to 16 bytes.  A removed property leaves an
unused entry, and the byte `p_end` ends the list unless it fills its last chunk.  A new property
takes the first unused space that is large enough, or an exact fit before that of an old value.
When there is none, a new chunk is linked to the last one, and entries in the way of the link move
to the new chunk.
-/

namespace Pmgd

open ByteMemory UndoLog

/-! ## Walks over the entries -/

namespace PropertyRef

/-- `PropertyRef(list)`. -/
def first (list : Nat) : Option PropertyRef :=
  if isAddress : 8 ≤ list then some ⟨list, 1, isAddress⟩ else none

/-- The pointer of a link; `none` is a failed assertion. -/
def link (ref : PropertyRef) (mem : Memory) : Option Nat :=
  if ref.ptype mem = some .link ∧ ref.offset + 8 = ref.chunkEnd mem then
    some (loadNat mem (ref.address + 1) 8)
  else none

def followLink (ref : PropertyRef) (mem : Memory) : Option PropertyRef :=
  (ref.link mem).bind first

def getId (ref : PropertyRef) (mem : Memory) : Option (BitVec 16) :=
  if ref.HasId mem then some (BitVec.ofNat 16 (loadNat mem (ref.address + 1) 2)) else none

/-- `skip_to_next`: whether there is a property from here on, and where. -/
def skipToNext (mem : Memory) : Nat → PropertyRef → Option (Bool × PropertyRef)
  | 0, _ => none
  | rounds + 1, ref =>
      if ref.NotDone mem then
        match ref.ptype mem with
        | some .link => (ref.followLink mem).bind (skipToNext mem rounds)
        | some .unused => skipToNext mem rounds (ref.skip mem)
        | _ => some (true, ref)
      else some (false, ref)

def next (ref : PropertyRef) (mem : Memory) (rounds : Nat) : Option (Bool × PropertyRef) :=
  skipToNext mem rounds (ref.skip mem)

end PropertyRef

/-- The space parameter of `find_property`; it is `NULL` when nothing is looked for (any more). -/
structure SpaceSearch where
  space : PropertySpace
  looking : Bool

namespace SpaceSearch

/-- What `find_property` does at unused space. -/
def visit (search : SpaceSearch) (mem : Memory) (ref : PropertyRef) : SpaceSearch :=
  let freeSpace := ref.freeSpace mem
  if search.looking ∧ search.space.req ≤ freeSpace then
    let exact := freeSpace = search.space.req
    if search.space.size = 0 ∨ exact then
      ⟨{ search.space with size := freeSpace, pos := ref }, decide ¬ exact⟩
    else search
  else search

end SpaceSearch

/-- What `find_property` returns. -/
structure PropertySearch where
  found : Bool
  ref : PropertyRef
  search : SpaceSearch

namespace PropertyList

/-- The loop of `find_property`; `none` is a failed assertion. -/
def findProperty (mem : Memory) (id : BitVec 16) :
    Nat → PropertyRef → SpaceSearch → Option PropertySearch
  | 0, _, _ => none
  | rounds + 1, ref, search =>
      if ref.NotDone mem then
        match ref.ptype mem with
        | some .link =>
            (ref.followLink mem).bind fun next => findProperty mem id rounds next search
        | some .unused => findProperty mem id rounds (ref.skip mem) (search.visit mem ref)
        | _ =>
            (ref.getId mem).bind fun entryId =>
              if entryId = id then some ⟨true, ref, search⟩
              else findProperty mem id rounds (ref.skip mem) search
      else some ⟨false, ref, search⟩

/-- `find_space`: whether there is space from here on, and where; otherwise the end. -/
def findSpace (mem : Memory) (req : Nat) : Nat → PropertyRef → Option (Bool × PropertyRef)
  | 0, _ => none
  | rounds + 1, ref =>
      if ref.NotDone mem then
        match ref.ptype mem with
        | some .link => (ref.followLink mem).bind (findSpace mem req rounds)
        | some .unused =>
            if req ≤ ref.freeSpace mem then some (true, ref)
            else findSpace mem req rounds (ref.skip mem)
        | _ => findSpace mem req rounds (ref.skip mem)
      else some (decide (req ≤ ref.freeSpace mem), ref)

end PropertyList

/-! ## What a transaction knows -/

/-- A block of the allocator. -/
structure Region where
  start : Nat
  length : Nat
  deriving DecidableEq

/-- A call of `IndexManager::update`. -/
structure IndexUpdate where
  id : BitVec 16
  oldValue : Option Property
  newValue : Option Property
  deriving DecidableEq

/-- `PropertyListIteratorImpl`; without a property `_cur._chunk` is `NULL`. -/
structure PropertyListIterator where
  cur : Option PropertyRef
  vacantFlag : Bool
  deriving DecidableEq

/-- Memory with the undo images of the transaction, the calls of the allocator and of the index
manager, and the registered iterators. -/
structure ListWorld where
  mem : Memory
  log : List (Image Nat UInt8)
  allocated : List Region
  freed : List Region
  updates : List IndexUpdate
  iterators : List PropertyListIterator

/-- A loop passes a byte of the list in each round. -/
def ListWorld.rounds (world : ListWorld) : Nat :=
  256 + (world.allocated.map Region.length).sum

/-- The addresses that the allocator gives for a chunk and for a block, if it has room, and whether
the index manager throws, as when there is an index of another type for the id. -/
structure ListOffer where
  chunk : Option Nat
  block : Option Nat
  updateFails : Bool

/-- The exceptions; `assertion` is a failed assertion or a loop without end, and `indexManager` one
of `IndexManager::update`. -/
inductive ListFailure
  | assertion
  | badAlloc
  | notImplemented
  | indexManager
  | vacantIterator
  deriving DecidableEq, Repr

abbrev ListEdit := EStateM ListFailure ListWorld

namespace ListEdit

def ofOption {α : Type} : Option α → ListEdit α
  | none => throw .assertion
  | some value => pure value

def modifyMem (change : Memory → Memory) : ListEdit Unit :=
  modify fun world => { world with mem := change world.mem }

/-- `TransactionImpl::log`. -/
def log (place length : Nat) : ListEdit Unit :=
  modify fun world => { world with
    log := world.log ++ [snapshot (fun address => place ≤ address ∧ address < place + length)
      world.mem] }

/-- `tx->write` of one byte. -/
def writeByte (place : Nat) (byte : UInt8) : ListEdit Unit := do
  log place 1
  modifyMem fun mem => store mem place [byte]

def alloc (offer : Option Nat) (size : Nat) : ListEdit Nat := do
  match offer with
  | none => throw .badAlloc
  | some place =>
      modify fun world => { world with allocated := ⟨place, size⟩ :: world.allocated }
      return place

/-- `Allocator::free`, which the commit carries out. -/
def free (region : Region) : ListEdit Unit :=
  modify fun world => { world with freed := region :: world.freed }

/-- `IndexManager::update` tells the index, if there is one. -/
def update (call : IndexUpdate) : ListEdit Unit :=
  modify fun world => { world with updates := world.updates ++ [call] }

/-- `IndexManager::update` for a new value, to which `check_type` and the index may object. -/
def updateValue (fails : Bool) (call : IndexUpdate) : ListEdit Unit :=
  if fails then throw .indexManager else update call

end ListEdit

open ListEdit

namespace PropertyListIterator

/-- The iterator at the next property from `ref` on, if there is one. -/
def moved (mem : Memory) (rounds : Nat) (ref : PropertyRef) (vacantFlag : Bool) :
    Option PropertyListIterator :=
  (PropertyRef.skipToNext mem rounds ref).map fun (found, ref) =>
    ⟨if found then some ref else none, vacantFlag⟩

/-- `notify`, before the property at this place of a chunk is removed; at 0 all of them are. -/
def notify (iterator : PropertyListIterator) (mem : Memory) (rounds chunk offset : Nat) :
    Option PropertyListIterator :=
  match iterator.cur with
  | none => some iterator
  | some cur =>
      if chunk = cur.chunk then
        if offset = 0 then some ⟨none, true⟩
        else if offset = cur.offset then moved mem rounds (cur.skip mem) true
        else some ⟨some cur, true⟩
      else some iterator

/-- `operator bool`. -/
def isValid (iterator : PropertyListIterator) : Bool :=
  iterator.vacantFlag || iterator.cur.isSome

/-- `ref`. -/
def ref (iterator : PropertyListIterator) : Except ListFailure (Option PropertyRef) :=
  if iterator.vacantFlag then .error .vacantIterator else .ok iterator.cur

/-- `next`. -/
def next (iterator : PropertyListIterator) (mem : Memory) (rounds : Nat) :
    Option PropertyListIterator :=
  if iterator.vacantFlag then some { iterator with vacantFlag := false }
  else iterator.cur.bind fun cur => moved mem rounds (cur.skip mem) false

end PropertyListIterator

/-- `property_iterator_notify`. -/
def ListEdit.notify (chunk offset : Nat) : ListEdit Unit := do
  let world ← get
  let iterators ← ofOption (world.iterators.mapM fun iterator =>
    iterator.notify world.mem world.rounds chunk offset)
  set { world with iterators }

/-! ## Changes -/

namespace PropertyRef

/-- `PropertyRef::free`. -/
def free (ref : PropertyRef) : ListEdit Unit := do
  notify ref.chunk ref.offset
  let mem := (← get).mem
  if ref.ptype mem = some .stringPtr ∨ ref.ptype mem = some .blob then
    ListEdit.free ⟨loadNat mem ref.val 8, loadNat mem (ref.val + 8) 4⟩
  if ref.offset + (ref.size mem + 1) ≤ ref.chunkSize mem then
    if (ref.skip mem).NotDone mem then
      writeByte ref.address (typeSizeByte (ref.size mem + 1) .unused)
    else
      writeByte ref.address (UInt8.ofNat EntryType.done.code)
  else throw .assertion

/-- The first loop of `make_space`: the first entry that reaches into the space for a link. -/
def linkSpace (mem : Memory) : Nat → PropertyRef → Option PropertyRef
  | 0, _ => none
  | rounds + 1, ref =>
      if ref.offset + ref.size mem < ref.chunkEnd mem - 8 then
        linkSpace mem rounds (ref.skip mem)
      else some ref

/-- The second loop of `make_space`: copy the properties from `ref` on to `q`. -/
def copyProperties : Nat → Memory → PropertyRef → PropertyRef → Option (Memory × PropertyRef)
  | 0, _, _, _ => none
  | rounds + 1, mem, ref, q =>
      if ref.NotDone mem then
        if ref.ptype mem ≠ some .unused then
          let copied := store mem q.address (load mem ref.address (ref.size mem + 1))
          copyProperties rounds copied (ref.skip copied) (q.skip copied)
        else copyProperties rounds mem (ref.skip mem) q
      else some (mem, q)

/-- `make_space`: the place for the link, and the end of the new chunk. -/
def makeSpace (ref q : PropertyRef) : ListEdit (PropertyRef × PropertyRef) := do
  let mem := (← get).mem
  let space ← ofOption (linkSpace mem (ref.chunkSize mem) { ref with offset := 1 })
  let (copied, q) ← ofOption (copyProperties (ref.chunkSize mem + 1) mem space q)
  modifyMem fun _ => q.setTypeSize copied (UInt8.ofNat EntryType.done.code)
  return (space, q)

/-- `set_link`. -/
def setLink (ref : PropertyRef) (chunk : Nat) : ListEdit Unit := do
  let mem := (← get).mem
  let remainingSize := ref.chunkSize mem - ref.offset
  if 9 ≤ remainingSize ∧ remainingSize - 9 < 16 then
    log ref.address remainingSize
    let unusedSize := remainingSize - 9
    if 0 < unusedSize then
      modifyMem fun mem => ref.setTypeSize mem (typeSizeByte unusedSize .unused)
    let ref := ref.advance unusedSize
    modifyMem fun mem => store (ref.setTypeSize mem (UInt8.ofNat EntryType.link.code))
      (ref.address + 1) (encode 8 chunk)
  else throw .assertion

end PropertyRef

/-- `PropertySpace::set_property`; the space in a new chunk is not logged. -/
def PropertySpace.write (space : PropertySpace) (newChunk : Bool) (id : BitVec 16)
    (value : Property) (offer : Option Nat) : ListEdit Unit := do
  let mem := (← get).mem
  if 3 ≤ space.req ∧ space.req ≤ space.size ∧ space.size ≤ space.pos.freeSpace mem then
    if newChunk then pure ()
    else log space.pos.address (if space.req < space.size then space.req + 1 else space.req)
    if space.req < space.size then
      let sized ← ofOption (space.pos.setSize mem space.size space.req)
      modifyMem fun _ => sized
    let block ← match value.external with
      | none => pure 0
      | some bytes =>
          if bytes.length < 2 ^ 32 then alloc offer bytes.length else throw .notImplemented
    let mem := (← get).mem
    let valued ← ofOption (space.pos.setValue (fun mem _ => some (block, mem)) mem value space.req)
    let written ← ofOption (space.pos.setId valued id)
    modifyMem fun _ => written
  else throw .assertion

namespace PropertyList

/-- The size of the chunks that are added. -/
def chunkSize : Nat := 64

/-- `PropertyList::init`. -/
def init (mem : Memory) (list size : Nat) : Memory :=
  store mem list [UInt8.ofNat (size - 1), UInt8.ofNat EntryType.done.code]

/-- `add_chunk`: the end of the list in the new chunk. -/
def addChunk (last : PropertyRef) (offer : Option Nat) : ListEdit PropertyRef := do
  if last.NotDone (← get).mem then throw .assertion
  let chunk ← alloc offer chunkSize
  modifyMem fun mem => init mem chunk chunkSize
  let start ← ofOption (PropertyRef.first chunk)
  let mem := (← get).mem
  let (place, last) ← if last.freeSpace mem < 9 then last.makeSpace start else pure (last, start)
  place.setLink chunk
  return last

/-- The search of `set_property` and `remove_property`. -/
def find (list : Nat) (id : BitVec 16) (req : Nat) (looking : Bool) : ListEdit PropertySearch := do
  let world ← get
  let start ← ofOption (PropertyRef.first list)
  ofOption (findProperty world.mem id world.rounds start ⟨⟨req, 0, start⟩, looking⟩)

/-- `check_property`. -/
def checkProperty (list : Nat) (id : BitVec 16) : ListEdit (Option Property) := do
  let search ← find list id 0 false
  if search.found then
    let value ← ofOption (search.ref.getValue (← get).mem)
    return some value
  else return none

/-- The part of `set_property` that looks for space when there was none before an old value. -/
def findPlace (space : PropertySpace) (pos : PropertyRef) (offer : Option Nat) :
    ListEdit (PropertySpace × Bool) := do
  if space.size = 0 then
    let world ← get
    let (isSpace, place) ← ofOption (findSpace world.mem space.req world.rounds pos)
    if isSpace then
      return ({ space with pos := place, size := place.freeSpace world.mem }, false)
    else
      let place ← addChunk place offer
      return ({ space with pos := place, size := place.freeSpace (← get).mem }, true)
  else return (space, false)

/-- `set_property`. -/
def setProperty (list : Nat) (id : BitVec 16) (value : Property) (offer : ListOffer) :
    ListEdit Unit := do
  let search ← find list id (getSpace value + 3) true
  if search.found then
    let old ← ofOption (search.ref.getValue (← get).mem)
    updateValue offer.updateFails ⟨id, some old, some value⟩
    search.ref.free
  else
    updateValue offer.updateFails ⟨id, none, some value⟩
  let (space, newChunk) ← findPlace search.search.space search.ref offer.chunk
  space.write newChunk id value offer.block

/-- `remove_property`. -/
def removeProperty (list : Nat) (id : BitVec 16) : ListEdit Unit := do
  let search ← find list id 0 false
  if search.found then
    let old ← ofOption (search.ref.getValue (← get).mem)
    update ⟨id, some old, none⟩
    search.ref.free

/-- The index update of a property that `remove_all_properties` passes. -/
def dropProperty (ref : PropertyRef) (mem : Memory) : ListEdit Unit := do
  let id ← ofOption (ref.getId mem)
  let old ← ofOption (ref.getValue mem)
  update ⟨id, some old, none⟩

/-- The loop of `remove_all_properties`: the last chunk, and whether it is the first one. -/
def removeAll : Nat → PropertyRef → Bool → ListEdit (Nat × Bool)
  | 0, _, _ => throw .assertion
  | rounds + 1, ref, first => do
      let mem := (← get).mem
      if ref.NotDone mem then
        match ref.ptype mem with
        | some .link => do
            let next ← ofOption (ref.followLink mem)
            notify ref.chunk 0
            if first then pure () else free ⟨ref.chunk, chunkSize⟩
            removeAll rounds next false
        | some .unused => removeAll rounds (ref.skip mem) first
        | some .stringPtr => do
            dropProperty ref mem
            free ⟨loadNat mem ref.val 8, loadNat mem (ref.val + 8) 4⟩
            removeAll rounds (ref.skip mem) first
        | some .blob => do
            free ⟨loadNat mem ref.val 8, loadNat mem (ref.val + 8) 4⟩
            removeAll rounds (ref.skip mem) first
        | _ => do
            dropProperty ref mem
            removeAll rounds (ref.skip mem) first
      else return (ref.chunk, first)

/-- `remove_all_properties`. -/
def removeAllProperties (list : Nat) : ListEdit Unit := do
  let world ← get
  let start ← ofOption (PropertyRef.first list)
  let (chunk, first) ← removeAll world.rounds start true
  notify chunk 0
  if first then pure () else free ⟨chunk, chunkSize⟩
  writeByte (list + 1) (UInt8.ofNat EntryType.done.code)

/-- `get_properties`: a new iterator, which is registered when there is a property. -/
def getProperties (list : Nat) : ListEdit PropertyListIterator := do
  let world ← get
  let start ← ofOption (PropertyRef.first list)
  let iterator ← ofOption (PropertyListIterator.moved world.mem world.rounds start false)
  if iterator.cur.isSome then
    set { world with iterators := world.iterators ++ [iterator] }
  return iterator

end PropertyList

end Pmgd
