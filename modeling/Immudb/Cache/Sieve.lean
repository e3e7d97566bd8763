import Mathlib.Algebra.Order.Group.Int
import Immudb.Lib.FiniteMap
import Immudb.Lib.Machine

/-!
# `Immudb/Cache/Sieve.lean` — the SIEVE cache of `embedded/cache`

`cache.Cache` keeps weighted entries in a Go map and their keys in a `container/list`, newest
at the front. When an insertion needs room, `evict` walks the list from the *hand* towards the
front, wrapping from the front to the back, for at most twice the list's length: an entry that
was read since the hand last passed (`visited`) has the bit cleared and is kept, and the first
unvisited entry that the `canEvict` filter allows is removed, the hand stopping just before it.
The database manager installs a filter that refuses every database in use.

The model follows the source method by method. The map is an `AList`, the list a list of keys,
front first; a list element is named by the key it holds, which the invariant makes unique, so
the hand is `Option K` (`none` for nil). Go's `interface{}` values are `Option V`, `none` being
nil. A method mutates the cache in place and may fail after part of its work, so it is an
`EStateM` over the cache; the two loops that evict until the weight fits recurse on the number
of cached keys, which a successful `evict` lowers. The callback `onEvict` is seen through the
calls it receives, which the cache logs in `evicted`.

`Resize` ignores the error of `evict` and then reads the entry it got, which is nil when the
error is not nil: Go panics there. The model gives that run the outcome `nilDereference`, which
no method returns as an error value.
-/

set_option autoImplicit false

namespace Immudb.Sieve

open FiniteMap Machine

/-! ## 1. The cache and its methods -/

/-- The errors of the package, and the panic of a nil dereference. -/
inductive CacheError
  | IllegalArguments
  | KeyNotFound
  | IllegalState
  | CannotEvictItem
  /-- Not a value the package returns: the method read through a nil pointer and panicked. -/
  | nilDereference
  deriving DecidableEq, Repr

/-- The map's entry for a key (the list element it points to is named by the key). -/
structure Entry (V : Type) where
  value : Option V
  visited : Bool
  weight : Int

structure Cache (K V : Type) where
  data : AList fun _ : K => Entry V
  /-- The element the next eviction scan starts from; `none` is nil. -/
  hand : Option K
  /-- The keys in list order, front first: `PushFront` conses, `Back` is the last. -/
  list : List K
  weight : Int
  maxWeight : Int
  canEvict : Option (K → Option V → Bool)
  onEvict : Bool
  /-- The calls made to `onEvict`, oldest first. -/
  evicted : List (K × Option V)

abbrev CacheM (K V : Type) := EStateM CacheError (Cache K V)

variable {K V : Type} [DecidableEq K]

def NewCache (maxWeight : Int) : Except CacheError (Cache K V) :=
  if maxWeight < 1 then .error .IllegalArguments
  else .ok { data := ∅, hand := none, list := [], weight := 0, maxWeight := maxWeight,
             canEvict := none, onEvict := false, evicted := [] }

def SetCanEvict (canEvict : Option (K → Option V → Bool)) : CacheM K V Unit :=
  modify fun c => { c with canEvict := canEvict }

def SetOnEvict (onEvict : Bool) : CacheM K V Unit :=
  modify fun c => { c with onEvict := onEvict }

/-- The element before the first one holding `k`, after `p`; `none` past the front. -/
def prevIn (k : K) : Option K → List K → Option K
  | _, [] => none
  | p, a :: l => if a = k then p else prevIn k (some a) l

/-- `Element.Prev` of the element holding `k`: nil at the front and for a removed element. -/
def Prev (l : List K) (k : K) : Option K := prevIn k none l

def Cache.shouldEvict (c : Cache K V) (key : K) (value : Option V) : Bool :=
  match c.canEvict with
  | none => true
  | some canEvict => canEvict key value

/-- The scan of `evict` (lines 175–196), with `n` steps left of its `2 * Len()`. -/
def evictLoop : Nat → Option K → CacheM K V (K × Entry V)
  | 0, _ => throw .CannotEvictItem
  | n + 1, curr => fun c =>
    -- `curr == nil` wraps to `Back()`; `curr.Value` and `e.visited` read through nil pointers
    match curr <|> c.list.getLast? with
    | none => .error .nilDereference c
    | some key =>
      match c.data.lookup key with
      | none => .error .nilDereference c
      | some e =>
        if !e.visited && c.shouldEvict key e.value then
          .ok (key, e) { c with hand := Prev c.list key, list := c.list.erase key,
                                data := c.data.erase key }
        else
          evictLoop n (Prev c.list key)
            { c with data := c.data.insert key { e with visited := false } }

def evict : CacheM K V (K × Entry V) := fun c =>
  if c.list.length = 0 then .error .IllegalState c
  else evictLoop (2 * c.list.length) c.hand c

/-- What both eviction loops do with an evicted entry: hand it to `onEvict` when one is set, and
take its weight off. -/
def Cache.dropEvicted (c : Cache K V) (key : K) (e : Entry V) : Cache K V :=
  { c with evicted := if c.onEvict then c.evicted ++ [(key, e.value)] else c.evicted,
           weight := c.weight - e.weight }

/-- A successful `evict` removes a key of the map. -/
theorem evictLoop_ok_length {n : Nat} {curr : Option K} {c c' : Cache K V} {p : K × Entry V}
    (h : evictLoop n curr c = .ok p c') : c'.data.keys.length + 1 = c.data.keys.length := by
  induction n generalizing curr c with
  | zero => cases h
  | succ n ih =>
    simp only [evictLoop] at h
    split at h
    · cases h
    · rename_i key _
      split at h
      · cases h
      · rename_i e he
        have hmem : key ∈ c.data := AList.lookup_isSome.mp (by rw [he]; rfl)
        split at h
        · cases h
          exact length_keys_erase hmem
        · rw [← length_keys_insert hmem { e with visited := false }]
          exact ih h

theorem evict_ok_length {c c' : Cache K V} {p : K × Entry V} (h : evict.run c = .ok p c') :
    c'.data.keys.length < c.data.keys.length := by
  simp only [evict, EStateM.run] at h
  split at h
  · cases h
  · have := evictLoop_ok_length h
    omega

set_option linter.unusedVariables false in
/-- `Resize` (lines 88–101): its loop, on the state. -/
def resizeLoop (newWeight : Int) (c : Cache K V) : EStateM.Result CacheError (Cache K V) Unit :=
  if c.weight > newWeight then
    match h : evict.run c with
    -- the error is dropped and `entry.value` reads the nil entry
    | .error _ c' => .error .nilDereference c'
    | .ok (key, entry) c' => resizeLoop newWeight (c'.dropEvicted key entry)
  else .ok () c
termination_by c.data.keys.length
decreasing_by
  have hlt := evict_ok_length h
  exact hlt

def Resize (newWeight : Int) : CacheM K V Unit := do
  resizeLoop newWeight
  modify fun c => { c with maxWeight := newWeight }

set_option linter.unusedVariables false in
/-- `evictWhileFull` (lines 151–168): `rkey` and `rvalue` are the last entry evicted so far. -/
def evictWhileFull (weight : Int) (rkey : Option K) (rvalue : Option V) (c : Cache K V) :
    EStateM.Result CacheError (Cache K V) (Option K × Option V) :=
  if c.weight + weight > c.maxWeight then
    match h : evict.run c with
    | .error err c' => .error err c'
    | .ok (evictedKey, entry) c' =>
      evictWhileFull weight (some evictedKey) entry.value (c'.dropEvicted evictedKey entry)
  else .ok (rkey, rvalue) c
termination_by c.data.keys.length
decreasing_by
  have hlt := evict_ok_length h
  exact hlt

/-- `pop` (lines 232–248). -/
def pop (key : K) : CacheM K V (Option V) := fun c =>
  match c.data.lookup key with
  | none => .error .KeyNotFound c
  | some e =>
    .ok e.value { c with hand := if c.hand = some key then Prev c.list key else c.hand,
                         list := c.list.erase key, data := c.data.erase key,
                         weight := c.weight - e.weight }

theorem pop_length {key : K} {c : Cache K V} {e : Entry V} (he : c.data.lookup key = some e) :
    (endState ((pop key).run c)).data.keys.length < c.data.keys.length := by
  have hmem : key ∈ c.data := AList.lookup_isSome.mp (by rw [he]; rfl)
  have := length_keys_erase hmem
  simp only [pop, EStateM.run, he, endState]
  omega

set_option linter.unusedVariables false in
/-- `put` (lines 114–149). A key already cached whose new weight does not fit is popped and put
again, this time as a new key (line 123). -/
def put (key : Option K) (value : Option V) (weight : Int) (visited : Bool) (c : Cache K V) :
    EStateM.Result CacheError (Cache K V) (Option K × Option V) :=
  match key, value with
  | some key, some value =>
    if weight = 0 ∨ weight > c.maxWeight then .error .IllegalArguments c
    else
      match he : c.data.lookup key with
      | some e =>
        if c.weight - e.weight + weight > c.maxWeight then
          put (some key) (some value) weight true (endState ((pop key).run c))
        else
          .ok (none, none)
            { c with weight := c.weight - e.weight + weight,
                     data := c.data.insert key { value := some value, visited := true, weight } }
      | none =>
        match evictWhileFull weight none none c with
        | .error err c' => .error err c'
        | .ok (evictedKey, evictedValue) c' =>
          .ok (evictedKey, evictedValue)
            { c' with weight := c'.weight + weight,
                      data := c'.data.insert key { value := some value, visited, weight },
                      list := key :: c'.list }
  | _, _ => .error .IllegalArguments c
termination_by c.data.keys.length
decreasing_by exact pop_length he

def PutWeighted (key : Option K) (value : Option V) (weight : Int) :
    CacheM K V (Option K × Option V) :=
  put key value weight false

def Put (key : Option K) (value : Option V) : CacheM K V (Option K × Option V) :=
  PutWeighted key value 1

def Get (key : Option K) : CacheM K V (Option V) := fun c =>
  match key with
  | none => .error .IllegalArguments c
  | some key =>
    match c.data.lookup key with
    | none => .error .KeyNotFound c
    | some e => .ok e.value { c with data := c.data.insert key { e with visited := true } }

def Pop (key : Option K) : CacheM K V (Option V) := fun c =>
  match key with
  | none => .error .IllegalArguments c
  | some key => (pop key).run c

def Replace (key : Option K) (v : Option V) : CacheM K V (Option V) := fun c =>
  match key with
  | none => .error .IllegalArguments c
  | some key =>
    match c.data.lookup key with
    | none => .error .KeyNotFound c
    | some e => .ok e.value { c with data := c.data.insert key { e with value := v } }

/-! ## 2. The invariant

`Wf` is what holds between any two statements of a method: the list holds each key of the map
once and nothing else, the hand is nil or an element of the list, the weight is the total of
the entries' weights, and every entry weighs something. `Inv` adds that the weight fits the
maximum, which the eviction loops restore before they return. -/

structure Cache.Wf (c : Cache K V) : Prop where
  nodup : c.list.Nodup
  mem_list : ∀ k, k ∈ c.list ↔ k ∈ c.data
  hand_mem : ∀ k, c.hand = some k → k ∈ c.list
  weight_eq : c.weight = total (fun _ e => e.weight) c.data
  weight_pos : ∀ k e, c.data.lookup k = some e → 0 < e.weight

structure Cache.Inv (c : Cache K V) : Prop extends c.Wf where
  weight_le : c.weight ≤ c.maxWeight

/-- What an entry holds besides its visited bit. -/
def Entry.held (e : Entry V) : Option V × Int := (e.value, e.weight)

/-- `c'` is `c` with some visited bits changed: all that the scan of `evict` and `Get` change. -/
structure Cache.SameExceptVisited (c c' : Cache K V) : Prop where
  hand : c'.hand = c.hand
  list : c'.list = c.list
  weight : c'.weight = c.weight
  maxWeight : c'.maxWeight = c.maxWeight
  canEvict : c'.canEvict = c.canEvict
  onEvict : c'.onEvict = c.onEvict
  evicted : c'.evicted = c.evicted
  lookup : ∀ k, (c'.data.lookup k).map Entry.held = (c.data.lookup k).map Entry.held

namespace Cache.SameExceptVisited

variable {c c' c'' : Cache K V}

theorem refl (c : Cache K V) : c.SameExceptVisited c :=
  ⟨rfl, rfl, rfl, rfl, rfl, rfl, rfl, fun _ => rfl⟩

theorem trans (h₁ : c.SameExceptVisited c') (h₂ : c'.SameExceptVisited c'') : c.SameExceptVisited c'' :=
  ⟨h₂.hand.trans h₁.hand, h₂.list.trans h₁.list, h₂.weight.trans h₁.weight,
    h₂.maxWeight.trans h₁.maxWeight, h₂.canEvict.trans h₁.canEvict, h₂.onEvict.trans h₁.onEvict,
    h₂.evicted.trans h₁.evicted, fun k => (h₂.lookup k).trans (h₁.lookup k)⟩

/-- One step of the scan, or a `Get`: the entry at `key` has its visited bit set to `b`. -/
theorem setVisited {key : K} {e : Entry V} (he : c.data.lookup key = some e) (b : Bool) :
    c.SameExceptVisited { c with data := c.data.insert key { e with visited := b } } := by
  refine ⟨rfl, rfl, rfl, rfl, rfl, rfl, rfl, fun k => ?_⟩
  by_cases hk : k = key
  · subst hk
    simp only [AList.lookup_insert, he, Option.map_some]
    rfl
  · simp only [AList.lookup_insert_ne hk]

theorem mem (h : c.SameExceptVisited c') (k : K) : k ∈ c'.data ↔ k ∈ c.data := by
  rw [← AList.lookup_isSome, ← AList.lookup_isSome, ← Option.isSome_map (f := Entry.held),
    h.lookup k, Option.isSome_map]

theorem shouldEvict (h : c.SameExceptVisited c') (k : K) (v : Option V) :
    c'.shouldEvict k v = c.shouldEvict k v := by
  simp only [Cache.shouldEvict, h.canEvict]

/-- A total that reads only what the entries hold is unchanged. -/
theorem total_eq {M : Type} [AddCommMonoid M] (h : c.SameExceptVisited c') (f : K → Option V × Int → M) :
    total (fun k e => f k e.held) c'.data = total (fun k e => f k e.held) c.data := by
  refine total_congr fun k => ?_
  have hk := congrArg (Option.map (f k)) (h.lookup k)
  simp only [Option.map_map] at hk
  exact hk

/-- An entry of `c'` held the same in `c`. -/
theorem lookup_eq (h : c.SameExceptVisited c') {k : K} {e' : Entry V} (he : c'.data.lookup k = some e') :
    ∃ e, c.data.lookup k = some e ∧ e.held = e'.held := by
  have hk := h.lookup k
  rw [he, Option.map_some] at hk
  cases hc : c.data.lookup k with
  | none => rw [hc] at hk; cases hk
  | some e =>
    rw [hc, Option.map_some, Option.some_inj] at hk
    exact ⟨e, rfl, hk.symm⟩

theorem wf (h : c.SameExceptVisited c') (hwf : c.Wf) : c'.Wf where
  nodup := h.list ▸ hwf.nodup
  mem_list k := by rw [h.list, h.mem]; exact hwf.mem_list k
  hand_mem k hk := h.list ▸ hwf.hand_mem k (h.hand ▸ hk)
  weight_eq := by
    rw [h.weight, hwf.weight_eq]
    exact (h.total_eq fun _ held => held.2).symm
  weight_pos k e' he' := by
    obtain ⟨e, he, hheld⟩ := h.lookup_eq he'
    have hw : e.weight = e'.weight := congrArg Prod.snd hheld
    exact hw ▸ hwf.weight_pos k e he

end Cache.SameExceptVisited

/-! The three ways the methods change the entries: one is replaced, one is added at the front,
one is removed. Each keeps `Wf` with the weight it sets. -/

section Changes

variable {c : Cache K V} {key : K} {e : Entry V}

theorem Cache.Wf.update (hwf : c.Wf) (he : c.data.lookup key = some e) (e' : Entry V)
    (hpos : 0 < e'.weight) {W : Int} (hW : W = c.weight - e.weight + e'.weight) :
    ({ c with weight := W, data := c.data.insert key e' } : Cache K V).Wf where
  nodup := hwf.nodup
  mem_list k := by
    have hkey : key ∈ c.data := AList.lookup_isSome.mp (by rw [he]; rfl)
    rw [hwf.mem_list, AList.mem_insert]
    exact ⟨.inr, fun h => h.elim (· ▸ hkey) id⟩
  hand_mem := hwf.hand_mem
  weight_eq := by
    have hsum := total_erase_add (f := fun (_ : K) (e : Entry V) => e.weight) he
    simp only [total_insert, hW, hwf.weight_eq]
    omega
  weight_pos k e'' he'' := by
    by_cases hk : k = key
    · subst hk
      rw [AList.lookup_insert, Option.some_inj] at he''
      exact he'' ▸ hpos
    · rw [AList.lookup_insert_ne hk] at he''
      exact hwf.weight_pos k e'' he''

theorem Cache.Wf.pushFront (hwf : c.Wf) (hk : key ∉ c.data) (e : Entry V) (hpos : 0 < e.weight) :
    ({ c with weight := c.weight + e.weight, data := c.data.insert key e,
              list := key :: c.list } : Cache K V).Wf where
  nodup := List.nodup_cons.mpr ⟨fun h => hk ((hwf.mem_list key).mp h), hwf.nodup⟩
  mem_list k := by
    rw [List.mem_cons, AList.mem_insert, hwf.mem_list]
  hand_mem k hh := List.mem_cons_of_mem _ (hwf.hand_mem k hh)
  weight_eq := by
    simp only [total_insert_of_notMem hk, hwf.weight_eq]
    omega
  weight_pos k e' he' := by
    by_cases hkk : k = key
    · subst hkk
      rw [AList.lookup_insert, Option.some_inj] at he'
      exact he' ▸ hpos
    · rw [AList.lookup_insert_ne hkk] at he'
      exact hwf.weight_pos k e' he'

/-- Removing the entry at `key` from the map and the list, with the hand on another element. -/
theorem Cache.Wf.erase (hwf : c.Wf) (he : c.data.lookup key = some e) {hand : Option K}
    (hhand : ∀ k, hand = some k → k ∈ c.list.erase key) (log : List (K × Option V)) :
    ({ c with hand := hand, list := c.list.erase key, data := c.data.erase key,
              weight := c.weight - e.weight, evicted := log } : Cache K V).Wf where
  nodup := hwf.nodup.erase key
  mem_list k := by
    simp only [hwf.nodup.mem_erase_iff, AList.mem_erase, hwf.mem_list k]
  hand_mem := hhand
  weight_eq := by
    have hsum := total_erase_add (f := fun (_ : K) (e : Entry V) => e.weight) he
    simp only [hwf.weight_eq]
    omega
  weight_pos k e' he' := by
    by_cases hk : k = key
    · subst hk
      rw [AList.lookup_erase] at he'
      cases he'
    · rw [AList.lookup_erase_ne hk] at he'
      exact hwf.weight_pos k e' he'

end Changes

/-! ## 3. The hand and `Prev` -/

section Prev

variable {l : List K}

theorem prevIn_getElem (hnd : l.Nodup) {p : Nat} (hp : p < l.length) (acc : Option K) :
    prevIn l[p] acc l = if p = 0 then acc else l[p - 1]? := by
  induction l generalizing p acc with
  | nil => cases hp
  | cons a t ih =>
    obtain ⟨ha, ht⟩ := List.nodup_cons.mp hnd
    cases p with
    | zero => simp [prevIn]
    | succ p =>
      have hp' : p < t.length := by simpa using hp
      have hne : a ≠ t[p] := fun h => ha (h ▸ List.getElem_mem hp')
      simp only [List.getElem_cons_succ, prevIn, if_neg hne]
      rw [ih ht hp']
      cases p <;> simp

/-- The element before the one at position `p`, nil at the front. -/
theorem Prev_getElem (hnd : l.Nodup) {p : Nat} (hp : p < l.length) :
    Prev l l[p] = if p = 0 then none else l[p - 1]? :=
  prevIn_getElem hnd hp none

/-- The position the scan of `evict` visits after position `p` of a list of `n`: one towards the
front, or from the front to the back. -/
def scanNext (n p : Nat) : Nat := if p = 0 then n - 1 else p - 1

theorem scanNext_lt {n p : Nat} (hp : p < n) : scanNext n p < n := by
  unfold scanNext; split_ifs <;> omega

theorem Prev_orElse_getLast (hnd : l.Nodup) {p : Nat} (hp : p < l.length) :
    (Prev l l[p] <|> l.getLast?) = l[scanNext l.length p]? := by
  rw [Prev_getElem hnd hp]
  unfold scanNext
  by_cases hp0 : p = 0
  · simp only [if_pos hp0, List.getLast?_eq_getElem?]
    rfl
  · simp only [if_neg hp0]
    have : l[p - 1]?.isSome := by simp; omega
    cases h : l[p - 1]? with
    | none => rw [h] at this; cases this
    | some b => rfl

/-- The element before `k`, if any, is another element of the list. -/
theorem Prev_mem_erase (hnd : l.Nodup) {k b : K} (hk : k ∈ l) (h : Prev l k = some b) :
    b ∈ l.erase k := by
  obtain ⟨q, hq, rfl⟩ := List.mem_iff_getElem.mp hk
  rw [Prev_getElem hnd hq] at h
  by_cases hq0 : q = 0
  · rw [if_pos hq0] at h; cases h
  · rw [if_neg hq0, List.getElem?_eq_getElem (by omega), Option.some_inj] at h
    subst h
    refine (hnd.mem_erase_iff).mpr ⟨fun heq => ?_, List.getElem_mem _⟩
    have := (hnd.getElem_inj_iff).mp heq
    omega

end Prev

/-! ## 4. `evict`

A successful scan has cleared some visited bits and then removed one entry that was unvisited
and that the filter allows, the hand stopping at the element before it. A failed scan has only
cleared bits. With the invariant, the scan fails only if the filter refuses every entry: it
passes every element within the list's length of steps, and once more after that, so an allowed
entry it first finds visited it finds again with the bit cleared. -/

section Evict

variable {c c' : Cache K V}

/-- A scan that ends without evicting has only cleared visited bits. -/
theorem evictLoop_error {n : Nat} {curr : Option K} {err : CacheError}
    (h : evictLoop n curr c = .error err c') : c.SameExceptVisited c' := by
  induction n generalizing curr c with
  | zero => cases h; exact .refl _
  | succ n ih =>
    simp only [evictLoop] at h
    split at h
    · cases h; exact .refl _
    · split at h
      · cases h; exact .refl _
      · rename_i e he
        split at h
        · cases h
        · exact (Cache.SameExceptVisited.setVisited he false).trans (ih h)

theorem evictLoop_ok {n : Nat} {curr : Option K} {key : K} {e : Entry V}
    (h : evictLoop n curr c = .ok (key, e) c') :
    ∃ d, c.SameExceptVisited d ∧ d.data.lookup key = some e ∧ e.visited = false ∧
      c.shouldEvict key e.value = true ∧
      c' = { d with hand := Prev d.list key, list := d.list.erase key,
                    data := d.data.erase key } := by
  induction n generalizing curr c with
  | zero => cases h
  | succ n ih =>
    simp only [evictLoop] at h
    split at h
    · cases h
    · split at h
      · cases h
      · rename_i e' he'
        split at h
        · rename_i hev
          cases h
          simp only [Bool.and_eq_true, Bool.not_eq_true'] at hev
          exact ⟨_, .refl _, he', hev.1, hev.2, rfl⟩
        · obtain ⟨d, hd, hlook, hvis, hev, rfl⟩ := ih h
          exact ⟨d, (Cache.SameExceptVisited.setVisited he' false).trans hd, hlook, hvis,
            (Cache.SameExceptVisited.setVisited he' false).shouldEvict key e.value ▸ hev, rfl⟩

theorem evict_ok {key : K} {e : Entry V} (h : evict.run c = .ok (key, e) c') :
    ∃ d, c.SameExceptVisited d ∧ d.data.lookup key = some e ∧ e.visited = false ∧
      c.shouldEvict key e.value = true ∧
      c' = { d with hand := Prev d.list key, list := d.list.erase key,
                    data := d.data.erase key } := by
  simp only [evict, EStateM.run] at h
  split at h
  · cases h
  · exact evictLoop_ok h

/-- How many steps the scan takes from position `p` to position `q` of a list of `n`. -/
def scanDist (n p q : Nat) : Nat := if q ≤ p then p - q else p + n - q

theorem scanDist_lt {n p q : Nat} (hp : p < n) (hq : q < n) : scanDist n p q < n := by
  unfold scanDist; split_ifs <;> omega

theorem scanDist_next_self {n p : Nat} (hp : p < n) : scanDist n (scanNext n p) p = n - 1 := by
  unfold scanDist scanNext; split_ifs <;> omega

theorem scanDist_next {n p q : Nat} (hp : p < n) (hq : q < n) (hpq : p ≠ q) :
    scanDist n (scanNext n p) q + 1 = scanDist n p q := by
  unfold scanDist scanNext; split_ifs <;> omega

/-- The scan from position `p` evicts something if the entry at position `q` is allowed, and it
reaches that entry with fuel to spare: with its visited bit cleared, or with a whole round more. -/
theorem evictLoop_finds {m : Nat} {s : Cache K V} {p q : Nat} {curr : Option K} {e : Entry V}
    (hnd : s.list.Nodup) (hmem : ∀ k ∈ s.list, k ∈ s.data) (hp : p < s.list.length)
    (hcurr : (curr <|> s.list.getLast?) = s.list[p]?) (hq : q < s.list.length)
    (he : s.data.lookup s.list[q] = some e) (hev : s.shouldEvict s.list[q] e.value = true)
    (hm : scanDist s.list.length p q + s.list.length < m ∨
      (scanDist s.list.length p q < m ∧ e.visited = false)) :
    ∃ r s', evictLoop m curr s = .ok r s' := by
  induction m generalizing s p curr e with
  | zero => omega
  | succ m ih =>
    obtain ⟨ea, hea⟩ := Option.isSome_iff_exists.mp
      (AList.lookup_isSome.mpr (hmem _ (List.getElem_mem hp)))
    simp only [evictLoop, hcurr, List.getElem?_eq_getElem hp, hea]
    split
    · exact ⟨_, _, rfl⟩
    · rename_i hkeep
      -- the scan moves on from position `p` with `ea`'s bit cleared
      let s' : Cache K V := { s with data := s.data.insert s.list[p] { ea with visited := false } }
      have hlist : s'.list = s.list := rfl
      have hmem' : ∀ k ∈ s'.list, k ∈ s'.data :=
        fun k hk => (AList.mem_insert _).mpr (.inr (hmem k hk))
      have hnext : scanNext s.list.length p < s'.list.length := scanNext_lt hp
      have hcurr' : (Prev s.list s.list[p] <|> s'.list.getLast?) =
          s'.list[scanNext s.list.length p]? := Prev_orElse_getLast hnd hp
      by_cases hpq : p = q
      · subst hpq
        rw [he, Option.some_inj] at hea
        subst hea
        have hvis : e.visited = true := by
          simpa only [hev, Bool.and_true, Bool.not_eq_true', Bool.not_eq_false] using hkeep
        have hround : s.list.length ≤ m := by
          rcases hm with hm | ⟨-, hm⟩
          · omega
          · rw [hvis] at hm; cases hm
        refine ih (s := s') hnd hmem' hnext hcurr' hp (AList.lookup_insert _) hev (.inr ⟨?_, rfl⟩)
        rw [hlist, scanDist_next_self hp]
        omega
      · have hne : s.list[p] ≠ s.list[q] := fun h => hpq ((hnd.getElem_inj_iff).mp h)
        have hstep := scanDist_next hp hq hpq
        refine ih (s := s') hnd hmem' hnext hcurr' hq
          (by rw [AList.lookup_insert_ne hne.symm, he]) hev ?_
        rw [hlist]
        rcases hm with hm | ⟨hm, hvis⟩
        · exact .inl (by omega)
        · exact .inr ⟨by omega, hvis⟩

/-- With the invariant, `evict` succeeds whenever the filter allows some entry. -/
theorem evict_ok_of_evictable (hwf : c.Wf) {k : K} {e : Entry V} (he : c.data.lookup k = some e)
    (hev : c.shouldEvict k e.value = true) : ∃ r c', evict.run c = .ok r c' := by
  have hk : k ∈ c.list := (hwf.mem_list k).mpr (AList.lookup_isSome.mp (by rw [he]; rfl))
  obtain ⟨q, hq, rfl⟩ := List.mem_iff_getElem.mp hk
  -- the scan starts at the hand, or at the back when the hand is nil
  obtain ⟨p, hp, hcurr⟩ : ∃ p, ∃ _ : p < c.list.length,
      (c.hand <|> c.list.getLast?) = c.list[p]? := by
    cases hh : c.hand with
    | none =>
      refine ⟨c.list.length - 1, by omega, ?_⟩
      rw [List.getLast?_eq_getElem?]
      rfl
    | some h =>
      obtain ⟨p, hp, hp'⟩ := List.mem_iff_getElem.mp (hwf.hand_mem h hh)
      exact ⟨p, hp, by rw [List.getElem?_eq_getElem hp, hp']; rfl⟩
  simp only [evict, EStateM.run, if_neg (by omega : c.list.length ≠ 0)]
  exact evictLoop_finds hwf.nodup (fun k hk => (hwf.mem_list k).mp hk) hp hcurr hq he hev
    (.inl (by have := scanDist_lt hp hq; omega))

/-- With the invariant, `evict` fails only when the filter refuses every entry, and then it has
only cleared visited bits. -/
theorem evict_error (hwf : c.Wf) {err : CacheError} (h : evict.run c = .error err c') :
    c.SameExceptVisited c' ∧ ∀ k e, c.data.lookup k = some e → c.shouldEvict k e.value = false := by
  refine ⟨?_, fun k e he => ?_⟩
  · simp only [evict, EStateM.run] at h
    split at h
    · cases h; exact .refl c
    · exact evictLoop_error h
  · cases hev : c.shouldEvict k e.value with
    | false => rfl
    | true =>
      obtain ⟨r, c'', hok⟩ := evict_ok_of_evictable hwf he hev
      rw [hok] at h
      cases h

end Evict

/-! ## 5. The eviction loops

Both loops call `evict` until the weight fits a bound: `Resize` the new maximum, `put` the room a
new entry needs. Each round removes an entry the filter allows, so the entries it refuses stay,
and what they weigh, `refusedWeight`, is a floor the weight never goes under. A loop therefore
fails exactly when the refused entries alone weigh more than its bound. -/

/-- The weight of the entries the filter refuses. -/
def Cache.refusedWeight (c : Cache K V) : Int :=
  total (fun k e => if c.shouldEvict k e.value then 0 else e.weight) c.data

/-- What the eviction loops do to a cache: clear visited bits and remove entries the filter
allows, taking their weight off, and logging them when a callback is set. -/
structure Cache.Evicts (c c' : Cache K V) : Prop where
  maxWeight : c'.maxWeight = c.maxWeight
  canEvict : c'.canEvict = c.canEvict
  weight_le : c'.weight ≤ c.weight
  lookup : ∀ k e', c'.data.lookup k = some e' → ∃ e, c.data.lookup k = some e ∧ e.held = e'.held
  evicted : ∃ new, c'.evicted = c.evicted ++ new ∧ ∀ p ∈ new, p.1 ∈ c.data
  refused : c'.refusedWeight = c.refusedWeight

section Loops

variable {c c' c'' : Cache K V}

theorem Cache.Evicts.refl (c : Cache K V) : c.Evicts c :=
  ⟨rfl, rfl, le_rfl, fun _ e' he' => ⟨e', he', rfl⟩, ⟨[], by simp, by simp⟩, rfl⟩

theorem Cache.Evicts.mem (h : c.Evicts c') {k : K} (hk : k ∈ c'.data) : k ∈ c.data := by
  obtain ⟨e', he'⟩ := Option.isSome_iff_exists.mp (AList.lookup_isSome.mpr hk)
  obtain ⟨e, he, -⟩ := h.lookup k e' he'
  exact AList.lookup_isSome.mp (by rw [he]; rfl)

theorem Cache.Evicts.trans (h₁ : c.Evicts c') (h₂ : c'.Evicts c'') : c.Evicts c'' where
  maxWeight := h₂.maxWeight.trans h₁.maxWeight
  canEvict := h₂.canEvict.trans h₁.canEvict
  weight_le := h₂.weight_le.trans h₁.weight_le
  lookup k e'' he'' := by
    obtain ⟨e', he', hheld'⟩ := h₂.lookup k e'' he''
    obtain ⟨e, he, hheld⟩ := h₁.lookup k e' he'
    exact ⟨e, he, hheld.trans hheld'⟩
  evicted := by
    obtain ⟨new₁, hlog₁, hnew₁⟩ := h₁.evicted
    obtain ⟨new₂, hlog₂, hnew₂⟩ := h₂.evicted
    refine ⟨new₁ ++ new₂, by rw [hlog₂, hlog₁, List.append_assoc], fun p hp => ?_⟩
    rcases List.mem_append.mp hp with hp | hp
    · exact hnew₁ p hp
    · exact h₁.mem (hnew₂ p hp)
  refused := h₂.refused.trans h₁.refused

theorem Cache.SameExceptVisited.refusedWeight (h : c.SameExceptVisited c') : c'.refusedWeight = c.refusedWeight := by
  have hshould : c'.shouldEvict = c.shouldEvict := funext fun k => funext (h.shouldEvict k)
  unfold Cache.refusedWeight
  rw [hshould]
  exact h.total_eq fun k held => if c.shouldEvict k held.1 then 0 else held.2

theorem Cache.SameExceptVisited.evicts (h : c.SameExceptVisited c') : c.Evicts c' where
  maxWeight := h.maxWeight
  canEvict := h.canEvict
  weight_le := h.weight.le
  lookup _ _ he' := h.lookup_eq he'
  evicted := ⟨[], by rw [h.evicted, List.append_nil], by simp⟩
  refused := h.refusedWeight

/-- One round of either loop: `evict`, then `dropEvicted`. -/
theorem evict_dropEvicted (hwf : c.Wf) {key : K} {e : Entry V}
    (h : evict.run c = .ok (key, e) c') :
    (c'.dropEvicted key e).Wf ∧ c.Evicts (c'.dropEvicted key e) := by
  obtain ⟨d, hd, hlook, -, hev, rfl⟩ := evict_ok h
  have hdwf := hd.wf hwf
  have hkey : key ∈ d.data := AList.lookup_isSome.mp (by rw [hlook]; rfl)
  have hpos := hdwf.weight_pos key e hlook
  have hlook_erase : ∀ k e', (d.data.erase key).lookup k = some e' → k ≠ key ∧ d.data.lookup k = some e' := by
    intro k e' he'
    by_cases hk : k = key
    · subst hk; rw [AList.lookup_erase] at he'; cases he'
    · exact ⟨hk, by rwa [AList.lookup_erase_ne hk] at he'⟩
  refine ⟨hdwf.erase hlook (fun k hk => Prev_mem_erase hdwf.nodup ((hdwf.mem_list key).mpr hkey) hk)
    _, ⟨hd.maxWeight, hd.canEvict, ?_, fun k e' he' => hd.lookup_eq (hlook_erase k e' he').2, ?_,
    ?_⟩⟩
  · simp only [Cache.dropEvicted]
    rw [← hd.weight]
    omega
  · refine ⟨if d.onEvict then [(key, e.value)] else [], ?_, fun p hp => ?_⟩
    · simp only [Cache.dropEvicted, hd.evicted]
      split <;> simp
    · split at hp
      · rw [List.mem_singleton] at hp
        subst hp
        exact (hd.mem key).mp hkey
      · cases hp
  · have hsum := total_erase_add
      (f := fun (k : K) (e : Entry V) => if d.shouldEvict k e.value then 0 else e.weight) hlook
    rw [hd.shouldEvict, hev, if_pos rfl, add_zero] at hsum
    show total _ (d.data.erase key) = c.refusedWeight
    rw [← hd.refusedWeight]
    exact hsum

/-- The refused entries weigh at most what the cache weighs. -/
theorem Cache.Wf.refusedWeight_le (hwf : c.Wf) : c.refusedWeight ≤ c.weight := by
  rw [hwf.weight_eq]
  refine total_le_total fun k e he => ?_
  have := hwf.weight_pos k e he
  split <;> omega

/-- When the filter refuses every entry, they are all the weight. -/
theorem Cache.Wf.refusedWeight_eq (hwf : c.Wf)
    (hall : ∀ k e, c.data.lookup k = some e → c.shouldEvict k e.value = false) :
    c.refusedWeight = c.weight := by
  rw [hwf.weight_eq]
  refine total_eq_of_lookup fun k e he => ?_
  rw [hall k e he]
  rfl

end Loops

section Loops

variable {c c' : Cache K V}

theorem resizeLoop_ok {newWeight : Int} {u : Unit} (hwf : c.Wf)
    (h : resizeLoop newWeight c = .ok u c') : c'.Wf ∧ c'.weight ≤ newWeight ∧ c.Evicts c' := by
  fun_induction resizeLoop newWeight c with
  | case1 c hgt err c₁ hevict => cases h
  | case2 c hgt key entry c₁ hevict ih =>
    obtain ⟨hwf₁, hev₁⟩ := evict_dropEvicted hwf hevict
    obtain ⟨hwf', hle, hev'⟩ := ih hwf₁ h
    exact ⟨hwf', hle, hev₁.trans hev'⟩
  | case3 c hle =>
    cases h
    exact ⟨hwf, not_lt.mp hle, .refl _⟩

/-- The loop of `Resize` panics exactly when the entries the filter refuses weigh more than the
new maximum. -/
theorem resizeLoop_panics_iff {newWeight : Int} (hwf : c.Wf) :
    (∃ c', resizeLoop newWeight c = .error .nilDereference c') ↔ newWeight < c.refusedWeight := by
  fun_induction resizeLoop newWeight c with
  | case1 c hgt err c₁ hevict =>
    -- `evict` failed: the filter refuses every entry, so they are the whole weight
    obtain ⟨-, hall⟩ := evict_error hwf hevict
    rw [hwf.refusedWeight_eq hall]
    exact ⟨fun _ => hgt, fun _ => ⟨c₁, rfl⟩⟩
  | case2 c hgt key entry c₁ hevict ih =>
    obtain ⟨hwf₁, hev₁⟩ := evict_dropEvicted hwf hevict
    rw [← hev₁.refused]
    exact ih hwf₁
  | case3 c hle =>
    have hfloor := hwf.refusedWeight_le
    constructor
    · rintro ⟨c', h⟩
      cases h
    · intro hlt
      omega

theorem evictWhileFull_ok {w : Int} {rkey : Option K} {rvalue : Option V}
    {r : Option K × Option V} (hwf : c.Wf) (h : evictWhileFull w rkey rvalue c = .ok r c') :
    c'.Wf ∧ c'.weight + w ≤ c'.maxWeight ∧ c.Evicts c' := by
  fun_induction evictWhileFull w rkey rvalue c with
  | case1 c rkey rvalue hgt err c₁ hevict => cases h
  | case2 c rkey rvalue hgt key entry c₁ hevict ih =>
    obtain ⟨hwf₁, hev₁⟩ := evict_dropEvicted hwf hevict
    obtain ⟨hwf', hfit, hev'⟩ := ih hwf₁ h
    exact ⟨hwf', hfit, hev₁.trans hev'⟩
  | case3 c rkey rvalue hle =>
    cases h
    exact ⟨hwf, not_lt.mp hle, .refl _⟩

theorem evictWhileFull_error {w : Int} {rkey : Option K} {rvalue : Option V} {err : CacheError}
    (hwf : c.Wf) (h : evictWhileFull w rkey rvalue c = .error err c') : c'.Wf ∧ c.Evicts c' := by
  fun_induction evictWhileFull w rkey rvalue c with
  | case1 c rkey rvalue hgt err c₁ hevict =>
    cases h
    obtain ⟨hsame, -⟩ := evict_error hwf hevict
    exact ⟨hsame.wf hwf, hsame.evicts⟩
  | case2 c rkey rvalue hgt key entry c₁ hevict ih =>
    obtain ⟨hwf₁, hev₁⟩ := evict_dropEvicted hwf hevict
    obtain ⟨hwf', hev'⟩ := ih hwf₁ h
    exact ⟨hwf', hev₁.trans hev'⟩
  | case3 c rkey rvalue hle => cases h

/-- Making room for `w` fails exactly when the refused entries leave less than `w`. -/
theorem evictWhileFull_error_iff {w : Int} {rkey : Option K} {rvalue : Option V} (hwf : c.Wf) :
    (∃ err c', evictWhileFull w rkey rvalue c = .error err c') ↔
      c.maxWeight < c.refusedWeight + w := by
  fun_induction evictWhileFull w rkey rvalue c with
  | case1 c rkey rvalue hgt err c₁ hevict =>
    obtain ⟨-, hall⟩ := evict_error hwf hevict
    rw [hwf.refusedWeight_eq hall]
    exact ⟨fun _ => hgt, fun _ => ⟨err, c₁, rfl⟩⟩
  | case2 c rkey rvalue hgt key entry c₁ hevict ih =>
    obtain ⟨hwf₁, hev₁⟩ := evict_dropEvicted hwf hevict
    rw [← hev₁.refused, ← hev₁.maxWeight]
    exact ih hwf₁
  | case3 c rkey rvalue hle =>
    have hfloor := hwf.refusedWeight_le
    constructor
    · rintro ⟨err, c', h⟩
      cases h
    · intro hlt
      omega

end Loops

/-! ## 6. The methods keep the invariant -/

section Methods

variable {c c' : Cache K V}

theorem Resize_run (newWeight : Int) (c : Cache K V) :
    (Resize newWeight).run c =
      match resizeLoop newWeight c with
      | .ok _ c₁ => .ok () { c₁ with maxWeight := newWeight }
      | .error err c₁ => .error err c₁ := by
  cases h : resizeLoop newWeight c with
  | ok u c₁ => exact run_bind_ok h
  | error err c₁ => exact run_bind_error h

section Put

variable {key : K} {value : V} {w : Int} {visited : Bool}

theorem put_absent (hw : ¬(w = 0 ∨ w > c.maxWeight)) (hk : c.data.lookup key = none) :
    put (some key) (some value) w visited c =
      match evictWhileFull w none none c with
      | .error err c' => .error err c'
      | .ok (evictedKey, evictedValue) c' =>
        .ok (evictedKey, evictedValue)
          { c' with weight := c'.weight + w,
                    data := c'.data.insert key { value := some value, visited, weight := w },
                    list := key :: c'.list } := by
  rw [put, if_neg hw]
  split
  · rename_i e he
    rw [hk] at he
    cases he
  · rfl

theorem put_update {e : Entry V} (hw : ¬(w = 0 ∨ w > c.maxWeight)) (hk : c.data.lookup key = some e)
    (hfit : ¬(c.weight - e.weight + w > c.maxWeight)) :
    put (some key) (some value) w visited c =
      .ok (none, none) { c with weight := c.weight - e.weight + w,
                                data := c.data.insert key { value := some value, visited := true,
                                                            weight := w } } := by
  rw [put, if_neg hw]
  split
  · rename_i e' he'
    rw [hk, Option.some_inj] at he'
    subst he'
    rw [if_neg hfit]
  · rename_i he'
    rw [hk] at he'
    cases he'

theorem put_over {e : Entry V} (hw : ¬(w = 0 ∨ w > c.maxWeight)) (hk : c.data.lookup key = some e)
    (hover : c.weight - e.weight + w > c.maxWeight) :
    put (some key) (some value) w visited c =
      put (some key) (some value) w true (endState ((pop key).run c)) := by
  rw [put, if_neg hw]
  split
  · rename_i e' he'
    rw [hk, Option.some_inj] at he'
    subst he'
    rw [if_pos hover]
  · rename_i he'
    rw [hk] at he'
    cases he'

theorem pop_run {e : Entry V} (he : c.data.lookup key = some e) :
    (pop key).run c =
      .ok e.value { c with hand := if c.hand = some key then Prev c.list key else c.hand,
                           list := c.list.erase key, data := c.data.erase key,
                           weight := c.weight - e.weight } := by
  simp only [pop, EStateM.run, he]

/-- `pop` keeps the invariant; a failed one changes nothing. -/
theorem pop_inv (hinv : c.Inv) (key : K) : (endState ((pop key).run c)).Inv := by
  cases he : c.data.lookup key with
  | none =>
    simp only [pop, EStateM.run, he, endState]
    exact hinv
  | some e =>
    rw [pop_run he]
    have hkey : key ∈ c.list :=
      (hinv.mem_list key).mpr (AList.lookup_isSome.mp (by rw [he]; rfl))
    have hpos := hinv.weight_pos key e he
    refine ⟨hinv.toWf.erase he (fun k hk => ?_) _, ?_⟩
    · split at hk
      · exact Prev_mem_erase hinv.nodup hkey hk
      · rename_i hne
        exact hinv.nodup.mem_erase_iff.mpr ⟨fun h => hne (h ▸ hk), hinv.hand_mem k hk⟩
    · show c.weight - e.weight ≤ c.maxWeight
      have := hinv.weight_le
      omega

/-- `put` of a key that is not cached keeps the invariant, whether room is made or not. -/
theorem put_absent_inv (hinv : c.Inv) (hk : c.data.lookup key = none)
    (hw : ¬(w = 0 ∨ w > c.maxWeight)) (hpos : 0 < w) :
    (endState (put (some key) (some value) w visited c)).Inv := by
  rw [put_absent hw hk]
  cases hloop : evictWhileFull w none none c with
  | ok r c₁ =>
    obtain ⟨hwf₁, hfit, hev⟩ := evictWhileFull_ok hinv.toWf hloop
    -- evicting only removes keys, so `key` is still new
    have hk₁ : key ∉ c₁.data := fun h => by
      have hmem := hev.mem h
      rw [← AList.lookup_isSome, hk] at hmem
      cases hmem
    exact ⟨hwf₁.pushFront hk₁ { value := some value, visited, weight := w } hpos, hfit⟩
  | error err c₁ =>
    obtain ⟨hwf₁, hev⟩ := evictWhileFull_error hinv.toWf hloop
    refine ⟨hwf₁, ?_⟩
    have := hev.weight_le
    have := hev.maxWeight
    have := hinv.weight_le
    show c₁.weight ≤ c₁.maxWeight
    omega

theorem put_inv (hinv : c.Inv) (hpos : 0 < w) (key : Option K) (value : Option V) :
    (endState (put key value w visited c)).Inv := by
  -- a nil key or value is refused before anything changes
  rcases key with _ | key
  · rw [put.eq_def]
    exact hinv
  rcases value with _ | value
  · rw [put.eq_def]
    exact hinv
  by_cases hw : w = 0 ∨ w > c.maxWeight
  · rw [put, if_pos hw]
    exact hinv
  cases hk : c.data.lookup key with
  | none => exact put_absent_inv hinv hk hw hpos
  | some e =>
    by_cases hover : c.weight - e.weight + w > c.maxWeight
    · -- popped, the key is put again as a new one
      rw [put_over hw hk hover]
      have hk₁ : (endState ((pop key).run c)).data.lookup key = none := by
        rw [pop_run hk]
        exact AList.lookup_erase key c.data
      have hw₁ : ¬(w = 0 ∨ w > (endState ((pop key).run c)).maxWeight) := by
        rw [pop_run hk]
        exact hw
      exact put_absent_inv (pop_inv hinv key) hk₁ hw₁ hpos
    · rw [put_update hw hk hover]
      refine ⟨hinv.toWf.update hk _ hpos rfl, ?_⟩
      show c.weight - e.weight + w ≤ c.maxWeight
      omega

end Put

theorem Get_inv (hinv : c.Inv) (key : Option K) : (endState ((Get key).run c)).Inv := by
  rcases key with _ | key
  · exact hinv
  · simp only [Get, EStateM.run]
    cases he : c.data.lookup key with
    | none => exact hinv
    | some e =>
      dsimp only [endState]
      refine ⟨hinv.toWf.update he { e with visited := true } (hinv.weight_pos key e he) ?_,
        hinv.weight_le⟩
      show c.weight = c.weight - e.weight + e.weight
      omega

theorem Replace_inv (hinv : c.Inv) (key : Option K) (v : Option V) :
    (endState ((Replace key v).run c)).Inv := by
  rcases key with _ | key
  · exact hinv
  · simp only [Replace, EStateM.run]
    cases he : c.data.lookup key with
    | none => exact hinv
    | some e =>
      dsimp only [endState]
      refine ⟨hinv.toWf.update he { e with value := v } (hinv.weight_pos key e he) ?_,
        hinv.weight_le⟩
      show c.weight = c.weight - e.weight + e.weight
      omega

theorem Pop_inv (hinv : c.Inv) (key : Option K) : (endState ((Pop key).run c)).Inv := by
  rcases key with _ | key
  · exact hinv
  · exact pop_inv hinv key

/-- A `Resize` that does not panic ends within the new maximum. -/
theorem Resize_inv (hinv : c.Inv) {newWeight : Int} {u : Unit}
    (h : (Resize newWeight).run c = .ok u c') : c'.Inv := by
  rw [Resize_run] at h
  cases hloop : resizeLoop newWeight c with
  | ok u₁ c₁ =>
    rw [hloop] at h
    cases h
    obtain ⟨hwf₁, hle, -⟩ := resizeLoop_ok hinv.toWf hloop
    exact ⟨{ hwf₁ with }, hle⟩
  | error err c₁ =>
    rw [hloop] at h
    cases h

/-- `Resize` fails only by panicking. -/
theorem Resize_error {newWeight : Int} {err : CacheError} (hwf : c.Wf)
    (h : (Resize newWeight).run c = .error err c') : err = .nilDereference := by
  rw [Resize_run] at h
  cases hloop : resizeLoop newWeight c with
  | ok u₁ c₁ =>
    rw [hloop] at h
    cases h
  | error err₁ c₁ =>
    rw [hloop] at h
    cases h
    -- every error of the loop is the panic
    fun_induction resizeLoop newWeight c with
    | case1 => cases hloop; rfl
    | case2 c hgt key entry c₂ hevict ih =>
      exact ih (evict_dropEvicted hwf hevict).1 hloop
    | case3 => cases hloop

end Methods

/-! ## 7. Runs of calls

A program calls the methods one after another, changing the filter and the callback between
calls as the database manager's reference counts change. A call that panics ends the program:
`step` gives `none`. Every run of calls with positive weights keeps the invariant. -/

/-- The calls of the cache's API. -/
inductive Op (K V : Type)
  | PutWeighted (key : Option K) (value : Option V) (weight : Int)
  | Put (key : Option K) (value : Option V)
  | Get (key : Option K)
  | Pop (key : Option K)
  | Replace (key : Option K) (value : Option V)
  | Resize (newWeight : Int)
  | SetCanEvict (canEvict : Option (K → Option V → Bool))
  | SetOnEvict (onEvict : Bool)

/-- The cache after a call: `none` when the call panicked. -/
def afterCall {α : Type} : EStateM.Result CacheError (Cache K V) α → Option (Cache K V)
  | .error .nilDereference _ => none
  | r => some (endState r)

def step (c : Cache K V) : Op K V → Option (Cache K V)
  | .PutWeighted key value weight => afterCall ((PutWeighted key value weight).run c)
  | .Put key value => afterCall ((Put key value).run c)
  | .Get key => afterCall ((Get key).run c)
  | .Pop key => afterCall ((Pop key).run c)
  | .Replace key value => afterCall ((Replace key value).run c)
  | .Resize newWeight => afterCall ((Resize newWeight).run c)
  | .SetCanEvict canEvict => afterCall ((SetCanEvict canEvict).run c)
  | .SetOnEvict onEvict => afterCall ((SetOnEvict onEvict).run c)

def runOps (c : Cache K V) (ops : List (Op K V)) : Option (Cache K V) := ops.foldlM step c

/-- Calls made with arguments the cache is meant for: `PutWeighted` with a positive weight, and
every other call. -/
def Op.Valid : Op K V → Prop
  | .PutWeighted _ _ weight => 0 < weight
  | _ => True

section Runs

variable {c c' : Cache K V}

omit [DecidableEq K] in
theorem afterCall_eq_some {α : Type} {r : EStateM.Result CacheError (Cache K V) α}
    (h : afterCall r = some c') : c' = endState r := by
  unfold afterCall at h
  split at h
  · cases h
  · cases h
    rfl

theorem NewCache_inv (maxWeight : Int) (h : NewCache maxWeight = .ok c) : c.Inv := by
  unfold NewCache at h
  split at h
  · cases h
  · rename_i hmax
    cases h
    refine ⟨⟨List.nodup_nil, fun k => ?_, fun _ hh => ?_, rfl, fun k e he => ?_⟩, ?_⟩
    · constructor
      · intro hk
        cases hk
      · intro hk
        exact absurd hk (AList.notMem_empty k)
    · cases hh
    · rw [AList.lookup_empty] at he
      cases he
    · show (0 : Int) ≤ maxWeight
      omega

/-- Changing the filter or the callback touches nothing the invariant reads. -/
theorem Cache.Inv.setHooks (hinv : c.Inv) (canEvict : Option (K → Option V → Bool))
    (onEvict : Bool) : ({ c with canEvict, onEvict } : Cache K V).Inv :=
  ⟨⟨hinv.nodup, hinv.mem_list, hinv.hand_mem, hinv.weight_eq, hinv.weight_pos⟩, hinv.weight_le⟩

theorem step_inv (hinv : c.Inv) {op : Op K V} (hop : op.Valid) (h : step c op = some c') :
    c'.Inv := by
  cases op with
  | PutWeighted key value weight =>
    rw [afterCall_eq_some h]
    exact put_inv hinv hop key value
  | Put key value =>
    rw [afterCall_eq_some h]
    exact put_inv hinv Int.one_pos key value
  | Get key =>
    rw [afterCall_eq_some h]
    exact Get_inv hinv key
  | Pop key =>
    rw [afterCall_eq_some h]
    exact Pop_inv hinv key
  | Replace key value =>
    rw [afterCall_eq_some h]
    exact Replace_inv hinv key value
  | Resize newWeight =>
    -- a `Resize` that fails has panicked, and there is no cache after it
    cases hr : (Resize newWeight).run c with
    | ok u c₁ =>
      simp only [step, hr, afterCall, endState, Option.some_inj] at h
      exact h ▸ Resize_inv hinv hr
    | error err c₁ =>
      obtain rfl := Resize_error hinv.toWf hr
      simp only [step, hr, afterCall] at h
      cases h
  | SetCanEvict canEvict =>
    rw [afterCall_eq_some (r := (SetCanEvict canEvict).run c) h]
    exact hinv.setHooks canEvict c.onEvict
  | SetOnEvict onEvict =>
    rw [afterCall_eq_some (r := (SetOnEvict onEvict).run c) h]
    exact hinv.setHooks c.canEvict onEvict

/-- **The invariant over runs.** After any run of calls with positive weights that does not
panic, the list holds each cached key once and nothing else, the hand is nil or an element of
the list, the weight is the total of the entries' weights and fits the maximum. -/
theorem runOps_inv (hinv : c.Inv) (ops : List (Op K V)) (hops : ∀ op ∈ ops, op.Valid)
    (h : runOps c ops = some c') : c'.Inv :=
  foldlM_invariant Cache.Inv Op.Valid step (fun _ _ _ hs ho hst => step_inv hs ho hst) ops hinv
    hops h

end Runs

/-! ## 8. What the code does not do

Two things the cache is expected to do fail. `Resize` panics when the entries the filter
refuses weigh more than the new maximum: the database manager's `CloseAll` calls `Resize(0)`,
and a database still in use is such an entry. And a failed update of a cached key loses the key:
`put` pops it before making room, and when no room can be made the call returns the error with
the key gone, never handed to `onEvict`. -/

section Failures

variable {c c' : Cache K V}

theorem Resize_panics_iff (hwf : c.Wf) (newWeight : Int) :
    (∃ c', (Resize newWeight).run c = .error .nilDereference c') ↔
      newWeight < c.refusedWeight := by
  rw [← resizeLoop_panics_iff hwf, Resize_run]
  cases resizeLoop newWeight c with
  | ok u c₁ =>
    constructor <;> rintro ⟨c', h⟩ <;> cases h
  | error err c₁ => exact Iff.rfl

/-- The filter `createCache` installs (`pkg/database/db_manager.go`), with a database's
reference seen as its count: evict a database whose reference is set and held by no one. -/
def dbCanEvict (_ : Nat) (ref : Option Nat) : Bool := ref == some 0

/-- The cache of a database manager with one active database allowed, after database `0` was
opened and is in use (its reference count is `1`). -/
def oneDatabaseInUse : Cache Nat Nat where
  data := AList.insert 0 { value := some 1, visited := false, weight := 1 } ∅
  hand := none
  list := [0]
  weight := 1
  maxWeight := 1
  canEvict := some dbCanEvict
  onEvict := false
  evicted := []

theorem Resize_panics_database_in_use :
    ∃ c₀ : Cache Nat Nat, NewCache 1 = .ok c₀ ∧
      runOps c₀ [.SetCanEvict (some dbCanEvict), .Put (some 0) (some 1), .Resize 0] = none := by
  refine ⟨_, rfl, ?_⟩
  -- `SetCanEvict` installs the filter, and `Put` finds room without evicting
  have hput : step ({ data := ∅, hand := none, list := [], weight := 0, maxWeight := 1,
                      canEvict := some dbCanEvict, onEvict := false, evicted := [] } :
                    Cache Nat Nat) (.Put (some 0) (some 1)) = some oneDatabaseInUse := by
    simp only [step, Put, PutWeighted, EStateM.run]
    rw [put_absent (by decide) rfl, evictWhileFull, if_neg (by decide)]
    rfl
  have hreach : runOps ({ data := ∅, hand := none, list := [], weight := 0, maxWeight := 1,
                          canEvict := none, onEvict := false, evicted := [] } : Cache Nat Nat)
      [.SetCanEvict (some dbCanEvict), .Put (some 0) (some 1)] = some oneDatabaseInUse := by
    simp only [runOps, List.foldlM_cons, List.foldlM_nil]
    exact congrArg (· >>= pure) hput
  have hinv : oneDatabaseInUse.Inv :=
    runOps_inv (NewCache_inv 1 rfl) _ (by simp [Op.Valid]) hreach
  obtain ⟨c', hc'⟩ := (Resize_panics_iff hinv.toWf 0).2 (by decide)
  have hpanic : step oneDatabaseInUse (.Resize 0) = none := by
    simp only [step, hc', afterCall]
  -- the run is the two calls, then the panicking one
  show List.foldlM step _
    ([.SetCanEvict (some dbCanEvict), .Put (some 0) (some 1)] ++ [.Resize 0]) = none
  unfold runOps at hreach
  rw [List.foldlM_append, hreach]
  show step oneDatabaseInUse (.Resize 0) >>= pure = none
  rw [hpanic]
  rfl

/-- The cache of a database manager with two active databases allowed, both open and in use. -/
def twoDatabasesInUse : Cache Nat Nat where
  data := AList.insert 1 { value := some 1, visited := false, weight := 1 }
    (AList.insert 0 { value := some 1, visited := false, weight := 1 } ∅)
  hand := none
  list := [1, 0]
  weight := 2
  maxWeight := 2
  canEvict := some dbCanEvict
  onEvict := false
  evicted := []

theorem twoDatabasesInUse_keys : twoDatabasesInUse.data.keys = [1, 0] := rfl

theorem twoDatabasesInUse_inv : twoDatabasesInUse.Inv where
  nodup := by decide
  mem_list k := by
    change k ∈ [1, 0] ↔ k ∈ twoDatabasesInUse.data.keys
    rw [twoDatabasesInUse_keys]
  hand_mem k h := by cases h
  weight_eq := by decide
  weight_pos k e he := by
    have hk : k ∈ twoDatabasesInUse.data.keys := AList.lookup_isSome.mp (by rw [he]; rfl)
    simp only [twoDatabasesInUse_keys, List.mem_cons, List.not_mem_nil, or_false] at hk
    rcases hk with rfl | rfl <;> cases he <;> decide
  weight_le := by decide

/-- With both databases in use there is no room for a third. -/
theorem evictWhileFull_fails_databases_in_use :
    ∃ err c', evictWhileFull 1 none none twoDatabasesInUse = .error err c' :=
  (evictWhileFull_error_iff twoDatabasesInUse_inv.toWf).mpr (by decide)

/-- A failed update loses the key: `put` popped it (without calling `onEvict`), and the
eviction loop that then failed only removes keys. -/
theorem PutWeighted_error_drops_key (hinv : c.Inv) {key : K} {value : V} {w : Int}
    {err : CacheError} (hk : key ∈ c.data) (hw : ¬(w = 0 ∨ w > c.maxWeight))
    (h : (PutWeighted (some key) (some value) w).run c = .error err c') :
    key ∉ c'.data ∧ ∃ new, c'.evicted = c.evicted ++ new ∧ ∀ p ∈ new, p.1 ≠ key := by
  obtain ⟨e, he⟩ := Option.isSome_iff_exists.mp (AList.lookup_isSome.mpr hk)
  simp only [PutWeighted, EStateM.run] at h
  by_cases hover : c.weight - e.weight + w > c.maxWeight
  · rw [put_over hw he hover] at h
    -- after `pop` the key is new, so `put` fails in its eviction loop
    have hpop := pop_inv hinv key
    generalize hc₁ : endState ((pop key).run c) = c₁ at h hpop
    have hdata : c₁.data = c.data.erase key := by rw [← hc₁, pop_run he]; rfl
    have hlog₁ : c₁.evicted = c.evicted := by rw [← hc₁, pop_run he]; rfl
    have hmax : c₁.maxWeight = c.maxWeight := by rw [← hc₁, pop_run he]; rfl
    have hgone : key ∉ c₁.data := by
      rw [hdata]
      exact fun h => (AList.mem_erase.mp h).1 rfl
    have hk₁ : c₁.data.lookup key = none := by
      rw [hdata]
      exact AList.lookup_erase key c.data
    rw [put_absent (by rwa [hmax]) hk₁] at h
    cases hloop : evictWhileFull w none none c₁ with
    | ok r c₂ =>
      rw [hloop] at h
      cases h
    | error err₁ c₂ =>
      rw [hloop] at h
      cases h
      obtain ⟨-, hev⟩ := evictWhileFull_error hpop.toWf hloop
      obtain ⟨new, hlog, hnew⟩ := hev.evicted
      exact ⟨fun h => hgone (hev.mem h), new, by rw [hlog, hlog₁],
        fun p hp hpk => hgone (hpk ▸ hnew p hp)⟩
  · rw [put_update hw he hover] at h
    cases h

/-- Putting database `1` again with a weight of `2` pops it, and then finds nothing to evict to
make room: the database is no longer cached. -/
theorem PutWeighted_drops_database_in_use :
    ∃ err c', (PutWeighted (some 1) (some 1) 2).run twoDatabasesInUse = .error err c' ∧
      1 ∉ c'.data ∧ ∃ new, c'.evicted = twoDatabasesInUse.evicted ++ new ∧ ∀ p ∈ new, p.1 ≠ 1 := by
  -- the weight does not fit beside database `0`: `put` pops the key and tries to evict `0`
  have hrun : ∃ err c', (PutWeighted (some 1) (some 1) 2).run twoDatabasesInUse =
      .error err c' := by
    simp only [PutWeighted, EStateM.run]
    rw [put_over (by decide) rfl (by decide), pop_run rfl, put_absent (by decide) rfl,
      evictWhileFull, if_pos (by decide)]
    exact ⟨_, _, rfl⟩
  obtain ⟨err, c', h⟩ := hrun
  exact ⟨err, c', h, PutWeighted_error_drops_key twoDatabasesInUse_inv
    (AList.lookup_isSome.mp rfl) (by decide) h⟩

end Failures

end Immudb.Sieve
