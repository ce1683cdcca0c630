/-
# SystemsLabs.Proxy.Cache -- the object cache of `proxy.c`

The cache functions of `proxy.c` over an explicit state: the objects that were allocated
and not yet freed, and the globals `cache_head`, `cache_tail` and `cache_size`.  A pointer
is an address and `NULL` is 0.  Where a function allocates an object, the address that
`malloc` answers is an argument.

A function that follows links is an `Option`: `none` is a call that never returns, because
it reads `NULL` or a freed object or because a loop does not end.  A search that has taken
more steps than there are objects has met one of them twice and goes on for ever.
-/
import Mathlib

namespace SystemsLabs.Proxy

set_option autoImplicit false

abbrev maxCacheSize : Nat := 1024 * 1024

abbrev maxObjectSize : Nat := 100 * 1024

/-- The values of `size_t` are the numbers below. -/
def sizeMod : Nat := 2 ^ 64

def sizeAdd (a b : Nat) : Nat := (a + b) % sizeMod

def sizeSub (a b : Nat) : Nat := (a + (sizeMod - b % sizeMod)) % sizeMod

theorem sizeAdd_of_lt {a b : Nat} (fits : a + b < sizeMod) : sizeAdd a b = a + b :=
  Nat.mod_eq_of_lt fits

theorem sizeSub_of_le {a b : Nat} (le : b ≤ a) (fits : a < sizeMod) : sizeSub a b = a - b := by
  have small : b % sizeMod = b := Nat.mod_eq_of_lt (Nat.lt_of_le_of_lt le fits)
  have shift : a + (sizeMod - b) = a - b + sizeMod := by omega
  rw [sizeSub, small, shift, Nat.add_mod_right, Nat.mod_eq_of_lt (by omega)]

/-- `struct cache_obj`, with the strings that its pointers lead to. -/
structure CacheObj where
  key : String
  value : List UInt8
  len : Nat
  next : Nat
deriving DecidableEq, Repr

/-- The live objects and the globals of the cache. -/
structure Cache where
  objs : AList fun _ : Nat => CacheObj
  /-- `cache_head` -/
  head : Nat
  /-- `cache_tail` -/
  tail : Nat
  /-- `cache_size` -/
  size : Nat

namespace Cache

/-- The cache as the process starts with it. -/
def empty : Cache := ⟨∅, 0, 0, 0⟩

/-- The assignment `obj->next = next`. -/
def setNext (c : Cache) (obj next : Nat) : Option Cache :=
  (c.objs.lookup obj).map fun o => { c with objs := c.objs.insert obj { o with next := next } }

/-! ## `cacheFind` -/

/-- The loop of `cacheFind` from `tmp`. -/
def findFrom (c : Cache) (key : String) : Nat → Nat → Option Nat
  | 0, _ => none
  | fuel + 1, tmp =>
      if tmp = 0 then some 0
      else do
        let o ← c.objs.lookup tmp
        if o.key = key then some tmp else findFrom c key fuel o.next

def cacheFind (c : Cache) (key : String) : Option Nat :=
  c.findFrom key (c.objs.entries.length + 1) c.head

/-! ## `evict` -/

/-- The loop of `evict`; each pass frees an object. -/
def evictLoop (objSize : Nat) : Nat → Nat → Cache → Option Cache
  | 0, _, _ => none
  | fuel + 1, aggregSize, c =>
      if sizeAdd aggregSize 1 < objSize then do
        let tmp := c.head
        let o ← c.objs.lookup tmp
        evictLoop objSize fuel (sizeAdd aggregSize o.len)
          { objs := c.objs.erase tmp, head := o.next, tail := c.tail, size := sizeSub c.size o.len }
      else some c

def evict (c : Cache) (objSize : Nat) : Option Cache :=
  evictLoop objSize (c.objs.entries.length + 1) 0 c

/-! ## `cacheAdd` -/

/-- The middle of `cacheAdd`: a line is evicted if the new response reaches past the maximum
capacity. -/
def makeRoom (c : Cache) (len : Nat) : Option Cache :=
  if c.size > maxCacheSize then c.evict len else some c

/-- The end of `cacheAdd`: the queue is not initialised, or gets a new tail. -/
def enqueue (c : Cache) (webObj : Nat) : Option Cache :=
  if c.head = 0 then some { c with head := webObj, tail := webObj }
  else do
    let c ← c.setNext c.tail webObj
    some { c with tail := webObj }

/-- The part of `cacheAdd` for a key that was not found. -/
def insertNew (c : Cache) (key : String) (value : List UInt8) (len webObj : Nat) : Option Cache :=
  if webObj = 0 then none
  else do
    -- nothing reads `next` before both ends of `cacheAdd` set it to `NULL`
    let c := { c with objs := c.objs.insert webObj ⟨key, value, len, 0⟩, size := sizeAdd c.size len }
    let c ← c.makeRoom len
    c.enqueue webObj

def cacheAdd (c : Cache) (key : String) (value : List UInt8) (len webObj : Nat) : Option Cache := do
  let tmp ← c.cacheFind key
  if tmp ≠ 0 then some c else c.insertNew key value len webObj

/-! ## `replace_tail` -/

/-- The search of `replace_tail` for the object before `obj`. -/
def findPrev (c : Cache) (obj : Nat) : Nat → Nat → Option Nat
  | 0, _ => none
  | fuel + 1, tmp => do
      let o ← c.objs.lookup tmp
      if o.next = obj then some tmp else findPrev c obj fuel o.next

/-- `obj->next = NULL; cache_tail->next = obj; cache_tail = obj` -/
def relink (c : Cache) (obj : Nat) : Option Cache := do
  let c ← c.setNext obj 0
  let c ← c.setNext c.tail obj
  some { c with tail := obj }

def replaceTail (c : Cache) (obj : Nat) : Option Cache :=
  if obj = c.head then do
    let o ← c.objs.lookup obj
    relink { c with head := o.next } obj
  else do
    let tmp ← c.findPrev obj (c.objs.entries.length + 1) c.head
    let o ← c.objs.lookup obj
    let c ← c.setNext tmp o.next
    c.relink obj

end Cache

end SystemsLabs.Proxy
