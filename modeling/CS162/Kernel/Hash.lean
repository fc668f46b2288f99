/-
# `CS162.Kernel.Hash` — the hash table

`lib/kernel/hash.c`: buckets that are lists, a power of two of them, and `rehash` after every change,
which keeps about two elements for each bucket if `malloc` gives it the new buckets.  The elements are
those of a type `α`, as the caller's objects are known by their addresses; `hash` and `less` are the
caller's functions.  Whether `malloc` succeeds is an argument of each call.

`hash_table` says that whatever is called the table is a set of elements of which no two are tied, as
`TableStep` describes it, and `hash_iterates` that an iterator comes to each element once.
-/
import CS162.Lib.Buckets
import CS162.Lib.NaturalMerge
import Mathlib.Data.Finset.Card
import Mathlib.Data.Nat.Bitwise

namespace CS162.Kernel

open NaturalMerge

/-- `struct hash`, less the caller's functions. -/
structure Hash (α : Type) where
  elemCnt : Nat
  bucketCnt : Nat
  buckets : List (List α)

namespace Hash

variable {α : Type}

/-! ## The number of buckets -/

/-- `turn_off_least_1bit`. -/
def turnOffLeast1bit (x : Nat) : Nat := x &&& (x - 1)

/-- `is_power_of_2`. -/
def isPowerOf2 (x : Nat) : Bool := x != 0 && turnOffLeast1bit x == 0

/-- The loop of `rehash`; `none` if it has not ended after so many rounds. -/
def turnOff : Nat → Nat → Option Nat
  | 0, _ => none
  | fuel + 1, x => if isPowerOf2 x then some x else turnOff fuel (turnOffLeast1bit x)

/-- `BEST_ELEMS_PER_BUCKET`. -/
def bestElemsPerBucket : Nat := 2

/-- What `rehash` starts from: one bucket for about every two elements, and four at least. -/
def wanted (elemCnt : Nat) : Nat :=
  if elemCnt / bestElemsPerBucket < 4 then 4 else elemCnt / bestElemsPerBucket

/-! ## The operations -/

section Operations

variable [DecidableEq α] (hash : α → UInt32) (less : α → α → Bool)

/-- The index of `find_bucket`. -/
def findBucket (cnt : Nat) (e : α) : Nat := (hash e).toNat &&& (cnt - 1)

/-- `find_elem`. -/
def findElem (bucket : List α) (e : α) : Option α :=
  bucket.find? fun hi => !less hi e && !less e hi

/-- `find_bucket` and `find_elem`. -/
def find (h : Hash α) (e : α) : Option α :=
  findElem less (h.buckets.getD (findBucket hash h.bucketCnt e) []) e

/-- `insert_elem`. -/
def insertElem (h : Hash α) (i : Nat) (e : α) : Hash α :=
  { h with elemCnt := h.elemCnt + 1, buckets := Buckets.push h.buckets i e }

/-- `remove_elem`; `list_remove` takes the element out of whichever list it is in. -/
def removeElem (h : Hash α) (e : α) : Hash α :=
  { h with elemCnt := h.elemCnt - 1, buckets := Buckets.erase h.buckets e }

/-- `rehash`; `none` if its loop does not end. -/
def rehash (malloc : Bool) (h : Hash α) : Option (Hash α) :=
  (turnOff (wanted h.elemCnt) (wanted h.elemCnt)).map fun new =>
    if new = h.bucketCnt then h
    else if malloc then
      { h with
        bucketCnt := new
        buckets := Buckets.spread (findBucket hash new) new h.buckets }
    else h

/-- `hash_init`. -/
def hashInit (malloc : Bool) : Option (Hash α) :=
  if malloc then some { elemCnt := 0, bucketCnt := 4, buckets := List.replicate 4 [] } else none

/-- `hash_insert`. -/
def hashInsert (malloc : Bool) (h : Hash α) (new : α) : Option (Option α × Hash α) :=
  let old := h.find hash less new
  let h := if old.isNone then h.insertElem (findBucket hash h.bucketCnt new) new else h
  (rehash hash malloc h).map (old, ·)

/-- `hash_replace`. -/
def hashReplace (malloc : Bool) (h : Hash α) (new : α) : Option (Option α × Hash α) :=
  let old := h.find hash less new
  let bucket := findBucket hash h.bucketCnt new
  let h := match old with
    | some old => h.removeElem old
    | none => h
  (rehash hash malloc (h.insertElem bucket new)).map (old, ·)

/-- `hash_delete`. -/
def hashDelete (malloc : Bool) (h : Hash α) (e : α) : Option (Option α × Hash α) :=
  match h.find hash less e with
  | some found => (rehash hash malloc (h.removeElem found)).map (some found, ·)
  | none => some (none, h)

/-- `hash_clear`: the elements that a destructor is called for, and the table. -/
def hashClear (h : Hash α) : List α × Hash α :=
  (h.buckets.flatten, { h with elemCnt := 0, buckets := h.buckets.map fun _ => [] })

/-- `hash_apply`: the elements that the action is called for. -/
def hashApply (h : Hash α) : List α := h.buckets.flatten

end Operations

inductive HashCall (α : Type) where
  | insert (new : α)
  | replace (new : α)
  | find (e : α)
  | delete (e : α)
  | clear
  | apply
  | size

inductive HashAnswer (α : Type) where
  | elem (e : Option α)
  | elems (l : List α)
  | count (n : Nat)

/-- One call, and whether `malloc` would succeed in it. -/
def step [DecidableEq α] (hash : α → UInt32) (less : α → α → Bool) (h : Hash α) (malloc : Bool) :
    HashCall α → Option (HashAnswer α × Hash α)
  | .insert new => (hashInsert hash less malloc h new).map fun r => (.elem r.1, r.2)
  | .replace new => (hashReplace hash less malloc h new).map fun r => (.elem r.1, r.2)
  | .find e => some (.elem (h.find hash less e), h)
  | .delete e => (hashDelete hash less malloc h e).map fun r => (.elem r.1, r.2)
  | .clear => some (.elems h.hashClear.1, h.hashClear.2)
  | .apply => some (.elems h.hashApply, h)
  | .size => some (.count h.elemCnt, h)

def run [DecidableEq α] (hash : α → UInt32) (less : α → α → Bool) (h : Hash α) :
    List (HashCall α × Bool) → Option (List (HashAnswer α) × Hash α)
  | [] => some ([], h)
  | (c, malloc) :: rest =>
      (step hash less h malloc c).bind fun r =>
        (run hash less r.2 rest).map fun r' => (r.1 :: r'.1, r'.2)

/-! ## What a table is -/

/-- A table is a set of elements, and takes a new one only in place of one that is tied with it. -/
inductive TableStep [DecidableEq α] (less : α → α → Bool) :
    Finset α → HashCall α → HashAnswer α → Finset α → Prop
  | insert {S : Finset α} {e : α} : (∀ x ∈ S, ¬ Tied less x e) →
      TableStep less S (.insert e) (.elem none) (insert e S)
  | insertMet {S : Finset α} {e x : α} : x ∈ S → Tied less x e →
      TableStep less S (.insert e) (.elem (some x)) S
  | replace {S : Finset α} {e : α} : (∀ x ∈ S, ¬ Tied less x e) →
      TableStep less S (.replace e) (.elem none) (insert e S)
  | replaceMet {S : Finset α} {e x : α} : x ∈ S → Tied less x e →
      TableStep less S (.replace e) (.elem (some x)) (insert e (S.erase x))
  | find {S : Finset α} {e : α} : (∀ x ∈ S, ¬ Tied less x e) →
      TableStep less S (.find e) (.elem none) S
  | findMet {S : Finset α} {e x : α} : x ∈ S → Tied less x e →
      TableStep less S (.find e) (.elem (some x)) S
  | delete {S : Finset α} {e : α} : (∀ x ∈ S, ¬ Tied less x e) →
      TableStep less S (.delete e) (.elem none) S
  | deleteMet {S : Finset α} {e x : α} : x ∈ S → Tied less x e →
      TableStep less S (.delete e) (.elem (some x)) (S.erase x)
  | clear {S : Finset α} {l : List α} : l.Nodup → l.toFinset = S →
      TableStep less S .clear (.elems l) ∅
  | apply {S : Finset α} {l : List α} : l.Nodup → l.toFinset = S →
      TableStep less S .apply (.elems l) S
  | size {S : Finset α} : TableStep less S .size (.count S.card) S

inductive TableRun [DecidableEq α] (less : α → α → Bool) :
    Finset α → List (HashCall α) → List (HashAnswer α) → Finset α → Prop
  | nil {S : Finset α} : TableRun less S [] [] S
  | cons {S S₁ S' : Finset α} {c : HashCall α} {r : HashAnswer α} {cs : List (HashCall α)}
      {rs : List (HashAnswer α)} : TableStep less S c r S₁ → TableRun less S₁ cs rs S' →
      TableRun less S (c :: cs) (r :: rs) S'

/-! ## Powers of two -/

theorem testBit_top {x k : Nat} (hlo : 2 ^ k ≤ x) (hhi : x < 2 ^ (k + 1)) : x.testBit k = true := by
  rw [Nat.testBit_eq_decide_div_mod_eq, Nat.div_eq_of_lt_le (k := 1) (by omega) (by
    rw [pow_succ] at hhi
    omega)]
  rfl

theorem turnOff_least {x k : Nat} (hlo : 2 ^ k < x) (hhi : x < 2 ^ (k + 1)) :
    2 ^ k ≤ turnOffLeast1bit x ∧ turnOffLeast1bit x < x := by
  have hle : turnOffLeast1bit x ≤ x - 1 := Nat.and_le_right
  refine ⟨Nat.ge_two_pow_of_testBit ?_, by omega⟩
  rw [turnOffLeast1bit, Nat.testBit_and, testBit_top hlo.le hhi,
    testBit_top (Nat.le_sub_one_of_lt hlo) (by omega)]
  rfl

/-- The loop of `rehash` clears the lowest bit again and again, and comes to the highest. -/
theorem turnOff_spec {fuel x k : Nat} (hlo : 2 ^ k ≤ x) (hhi : x < 2 ^ (k + 1)) (hx : x ≤ fuel) :
    turnOff fuel x = some (2 ^ k) := by
  have hpos := Nat.two_pow_pos k
  induction fuel generalizing x with
  | zero => omega
  | succ fuel ih =>
      rcases hlo.eq_or_lt with rfl | hlt
      · have hpow : isPowerOf2 (2 ^ k) = true := by
          simp [isPowerOf2, turnOffLeast1bit, Nat.and_two_pow_sub_one_eq_mod]
        rw [turnOff, if_pos hpow]
      · obtain ⟨hge, hless⟩ := turnOff_least hlt hhi
        have hpow : ¬ isPowerOf2 x = true := by
          simp only [isPowerOf2, Bool.and_eq_true, bne_iff_ne, beq_iff_eq, not_and]
          omega
        rw [turnOff, if_neg hpow]
        exact ih hge (by omega) (by omega)

/-- The loop ends, at the largest power of two that does not exceed what is wanted. -/
theorem turnOff_wanted (elemCnt : Nat) : ∃ k, 2 ≤ k ∧
    turnOff (wanted elemCnt) (wanted elemCnt) = some (2 ^ k) ∧ 2 ^ k ≤ wanted elemCnt ∧
      wanted elemCnt < 2 ^ (k + 1) := by
  have hfour : 4 ≤ wanted elemCnt := by
    unfold wanted
    split <;> omega
  have hlo : 2 ^ (wanted elemCnt).log2 ≤ wanted elemCnt := Nat.log2_self_le (by omega)
  have hhi : wanted elemCnt < 2 ^ ((wanted elemCnt).log2 + 1) := Nat.lt_log2_self
  refine ⟨(wanted elemCnt).log2, ?_, turnOff_spec hlo hhi le_rfl, hlo, hhi⟩
  exact (Nat.le_log2 (by omega)).mpr hfour

/-! ## The invariant -/

variable [DecidableEq α] {hash : α → UInt32} {less : α → α → Bool} {h h' : Hash α} {e x : α}

structure Inv (hash : α → UInt32) (less : α → α → Bool) (h : Hash α) : Prop where
  cnt : h.buckets.length = h.bucketCnt
  pow : ∃ k, 2 ≤ k ∧ h.bucketCnt = 2 ^ k
  elems : h.elemCnt = h.buckets.flatten.length
  nodup : h.buckets.flatten.Nodup
  apart : ∀ x ∈ h.buckets.flatten, ∀ y ∈ h.buckets.flatten, Tied less x y → x = y
  placed : Buckets.Placed (findBucket hash h.bucketCnt) h.buckets

/-- The set of its elements. -/
def contents (h : Hash α) : Finset α := h.buckets.flatten.toFinset

omit [DecidableEq α] in
theorem findBucket_lt (k : Nat) (e : α) : findBucket hash (2 ^ k) e < 2 ^ k := by
  rw [findBucket, Nat.and_two_pow_sub_one_eq_mod]
  exact Nat.mod_lt _ (Nat.two_pow_pos k)

omit [DecidableEq α] in
theorem Inv.init :
    Inv hash less { elemCnt := 0, bucketCnt := 4, buckets := List.replicate 4 [] } where
  cnt := rfl
  pow := ⟨2, le_rfl, rfl⟩
  elems := rfl
  nodup := List.nodup_nil
  apart x hx := by cases hx
  placed i b hb e he := by
    rw [List.eq_of_mem_replicate (List.mem_of_getElem? hb)] at he
    cases he

omit [DecidableEq α] in
theorem tied_symm (ht : Tied less x e) : Tied less e x := ⟨ht.2, ht.1⟩

omit [DecidableEq α] in
/-- Only the order of the elements has changed, and the buckets. -/
theorem Inv.dealt (h₀ : Inv hash less h) (hcnt : h'.buckets.length = h'.bucketCnt)
    (hpow : ∃ k, 2 ≤ k ∧ h'.bucketCnt = 2 ^ k) (helems : h'.elemCnt = h.elemCnt)
    (hperm : h'.buckets.flatten.Perm h.buckets.flatten)
    (hplaced : Buckets.Placed (findBucket hash h'.bucketCnt) h'.buckets) : Inv hash less h' where
  cnt := hcnt
  pow := hpow
  elems := by rw [helems, h₀.elems, hperm.length_eq]
  nodup := hperm.nodup_iff.mpr h₀.nodup
  apart x hx y hy := h₀.apart x (hperm.mem_iff.mp hx) y (hperm.mem_iff.mp hy)
  placed := hplaced

/-- No bucket has more than four elements on average. -/
def Light (h : Hash α) : Prop := h.elemCnt < 4 * h.bucketCnt

theorem light_of_wanted {n k : Nat} (hk : 2 ≤ k) (hhi : wanted n < 2 ^ (k + 1)) : n < 4 * 2 ^ k := by
  have hfour : 2 ^ 2 ≤ 2 ^ k := Nat.pow_le_pow_right (by decide) hk
  rw [pow_succ] at hhi
  unfold wanted bestElemsPerBucket at hhi
  split at hhi <;> omega

/-- `rehash` deals the elements to other buckets, or leaves all as it is when `malloc` fails; the
contents are the same. -/
theorem Inv.rehash (h₀ : Inv hash less h) (malloc : Bool) :
    ∃ h', h.rehash hash malloc = some h' ∧ Inv hash less h' ∧ h'.contents = h.contents ∧
      (malloc = true → Light h') := by
  obtain ⟨k, hk, hturn, hlo, hhi⟩ := turnOff_wanted h.elemCnt
  have hlight := light_of_wanted hk hhi
  simp only [Hash.rehash, hturn, Option.map_some]
  split
  · next hsame => exact ⟨h, rfl, h₀, rfl, fun _ => by rw [Light, ← hsame]; exact hlight⟩
  · split
    · have hidx : ∀ e ∈ h.buckets.flatten, findBucket hash (2 ^ k) e < 2 ^ k := fun e _ =>
        findBucket_lt k e
      obtain ⟨hlen, hperm, hplaced⟩ := Buckets.spread_spec hidx
      refine ⟨_, rfl, h₀.dealt hlen ⟨k, hk, rfl⟩ rfl hperm hplaced, ?_, fun _ => hlight⟩
      exact List.toFinset_eq_of_perm _ _ hperm
    · next hno => exact ⟨h, rfl, h₀, rfl, fun hm => absurd hm hno⟩

/-! ## Finding -/

omit [DecidableEq α] in
theorem find_some (hfind : h.find hash less e = some x) :
    x ∈ h.buckets.flatten ∧ Tied less x e := by
  have htied := List.find?_some hfind
  simp only [Bool.and_eq_true, Bool.not_eq_true'] at htied
  exact ⟨Buckets.mem_of_getD (List.mem_of_find?_eq_some hfind), htied⟩

omit [DecidableEq α] in
/-- Elements that are tied are in one bucket. -/
theorem Inv.find_none (h₀ : Inv hash less h) (hhash : ∀ x y, Tied less x y → hash x = hash y)
    (hfind : h.find hash less e = none) : ∀ x ∈ h.buckets.flatten, ¬ Tied less x e := by
  intro x hx htied
  have hsame : findBucket hash h.bucketCnt x = findBucket hash h.bucketCnt e := by
    rw [findBucket, findBucket, hhash x e htied]
  have hmem := h₀.placed.mem hx
  rw [hsame] at hmem
  have hno := List.find?_eq_none.mp hfind x hmem
  simp [htied.1, htied.2] at hno

/-! ## Putting in and taking out -/

/-- An element that no other is tied with goes to the front of its bucket. -/
theorem Inv.insertElem (h₀ : Inv hash less h) (horder : StrictWeakOn less Set.univ)
    (hnew : ∀ x ∈ h.buckets.flatten, ¬ Tied less x e) :
    Inv hash less (h.insertElem (findBucket hash h.bucketCnt e) e) ∧
      (h.insertElem (findBucket hash h.bucketCnt e) e).contents = insert e h.contents := by
  obtain ⟨k, hk, hcnt⟩ := h₀.pow
  have hperm : (Buckets.push h.buckets (findBucket hash h.bucketCnt e) e).flatten.Perm
      (e :: h.buckets.flatten) := by
    refine Buckets.push_perm ?_
    rw [h₀.cnt, hcnt]
    exact findBucket_lt k e
  have hself : Tied less e e := ⟨horder.irrefl e trivial, horder.irrefl e trivial⟩
  constructor
  · exact {
      cnt := Buckets.length_push.trans h₀.cnt
      pow := h₀.pow
      elems := by
        show h.elemCnt + 1 = (Buckets.push h.buckets _ e).flatten.length
        rw [hperm.length_eq, h₀.elems, List.length_cons]
      nodup := hperm.nodup_iff.mpr (List.nodup_cons.mpr ⟨fun he => hnew e he hself, h₀.nodup⟩)
      apart := fun x hx y hy ht => by
        rcases List.mem_cons.mp (hperm.mem_iff.mp hx) with hxe | hxin
        · rcases List.mem_cons.mp (hperm.mem_iff.mp hy) with hye | hyin
          · rw [hxe, hye]
          · exact absurd (tied_symm (hxe ▸ ht)) (hnew y hyin)
        · rcases List.mem_cons.mp (hperm.mem_iff.mp hy) with hye | hyin
          · exact absurd (hye ▸ ht) (hnew x hxin)
          · exact h₀.apart x hxin y hyin ht
      placed := h₀.placed.push rfl }
  · exact (List.toFinset_eq_of_perm _ _ hperm).trans List.toFinset_cons

/-- An element is taken out of its bucket. -/
theorem Inv.removeElem (h₀ : Inv hash less h) (hx : x ∈ h.buckets.flatten) :
    Inv hash less (h.removeElem x) ∧ (h.removeElem x).contents = h.contents.erase x ∧
      (h.removeElem x).buckets.flatten = h.buckets.flatten.erase x := by
  have hflat : (Buckets.erase h.buckets x).flatten = h.buckets.flatten.erase x :=
    Buckets.flatten_erase h₀.nodup
  refine ⟨?_, ?_, hflat⟩
  · exact {
      cnt := (List.length_map ..).trans h₀.cnt
      pow := h₀.pow
      elems := by
        show h.elemCnt - 1 = (Buckets.erase h.buckets x).flatten.length
        rw [hflat, List.length_erase_of_mem hx, h₀.elems]
      nodup := by
        show (Buckets.erase h.buckets x).flatten.Nodup
        rw [hflat]
        exact h₀.nodup.erase x
      apart := fun y hy z hz => by
        rw [show (h.removeElem x).buckets.flatten = _ from hflat] at hy hz
        exact h₀.apart y (List.mem_of_mem_erase hy) z (List.mem_of_mem_erase hz)
      placed := h₀.placed.erase }
  · ext y
    rw [contents, contents, show (h.removeElem x).buckets.flatten = _ from hflat, Finset.mem_erase,
      List.mem_toFinset, List.mem_toFinset, h₀.nodup.mem_erase_iff]

/-- What is left when the one that was tied has gone is tied with the new one no more. -/
theorem Inv.removed_apart (h₀ : Inv hash less h) (horder : StrictWeakOn less Set.univ)
    (hx : x ∈ h.buckets.flatten) (htied : Tied less x e) :
    ∀ y ∈ (h.removeElem x).buckets.flatten, ¬ Tied less y e := by
  intro y hy ht
  rw [(h₀.removeElem hx).2.2] at hy
  obtain ⟨hne, hmem⟩ := h₀.nodup.mem_erase_iff.mp hy
  have hyx := horder.tied y trivial e trivial x trivial ht (tied_symm htied)
  exact hne (h₀.apart y hmem x hx hyx)

/-! ## The calls -/

/-- An element that is tied with none goes in. -/
theorem Inv.inserted (h₀ : Inv hash less h) (horder : StrictWeakOn less Set.univ)
    (hnew : ∀ x ∈ h.buckets.flatten, ¬ Tied less x e) (malloc : Bool) :
    ∃ h', (h.insertElem (findBucket hash h.bucketCnt e) e).rehash hash malloc = some h' ∧
      Inv hash less h' ∧ h'.contents = insert e h.contents ∧ (malloc = true → Light h') := by
  obtain ⟨hins, hset⟩ := h₀.insertElem horder hnew
  obtain ⟨h', hre, hinv, hcont, hlight⟩ := hins.rehash malloc
  exact ⟨h', hre, hinv, hcont.trans hset, hlight⟩

/-- `hash_clear` empties the buckets, and keeps their number. -/
theorem Inv.hashClear (h₀ : Inv hash less h) :
    Inv hash less h.hashClear.2 ∧ h.hashClear.2.contents = ∅ ∧ Light h.hashClear.2 := by
  obtain ⟨k, hk, hpow⟩ := h₀.pow
  have hempty : h.hashClear.2.buckets.flatten = [] := by simp [Hash.hashClear]
  refine ⟨?_, by rw [contents, hempty, List.toFinset_nil], ?_⟩
  · exact {
      cnt := (List.length_map ..).trans h₀.cnt
      pow := h₀.pow
      elems := by rw [hempty]; rfl
      nodup := by rw [hempty]; exact List.nodup_nil
      apart := fun x hx => by
        rw [hempty] at hx
        cases hx
      placed := fun i b hb e he => by
        obtain ⟨_, _, rfl⟩ := List.mem_map.mp (List.mem_of_getElem? hb)
        cases he }
  · have := Nat.two_pow_pos k
    show 0 < 4 * h.bucketCnt
    omega

/-- A call keeps the table, and does to its elements what it should. -/
theorem Inv.step (h₀ : Inv hash less h) (horder : StrictWeakOn less Set.univ)
    (hhash : ∀ x y, Tied less x y → hash x = hash y) (malloc : Bool) (c : HashCall α) :
    ∃ r h', h.step hash less malloc c = some (r, h') ∧ Inv hash less h' ∧
      TableStep less h.contents c r h'.contents ∧ (malloc = true → Light h → Light h') := by
  have hmem : ∀ {x : α}, x ∈ h.contents ↔ x ∈ h.buckets.flatten := List.mem_toFinset
  cases c with
  | insert e =>
      simp only [Hash.step, hashInsert]
      cases hfind : h.find hash less e with
      | none =>
          have hnone := h₀.find_none hhash hfind
          obtain ⟨h', hre, hinv, hcont, hlight⟩ := h₀.inserted horder hnone malloc
          refine ⟨.elem none, h', by simp [hre], hinv, ?_, fun hm _ => hlight hm⟩
          rw [hcont]
          exact .insert fun x hx => hnone x (hmem.mp hx)
      | some x =>
          obtain ⟨hx, htied⟩ := find_some hfind
          obtain ⟨h', hre, hinv, hcont, hlight⟩ := h₀.rehash malloc
          refine ⟨.elem (some x), h', by simp [hre], hinv, ?_, fun hm _ => hlight hm⟩
          rw [hcont]
          exact .insertMet (hmem.mpr hx) htied
  | replace e =>
      simp only [Hash.step, hashReplace]
      cases hfind : h.find hash less e with
      | none =>
          have hnone := h₀.find_none hhash hfind
          obtain ⟨h', hre, hinv, hcont, hlight⟩ := h₀.inserted horder hnone malloc
          refine ⟨.elem none, h', by simp [hre], hinv, ?_, fun hm _ => hlight hm⟩
          rw [hcont]
          exact .replace fun x hx => hnone x (hmem.mp hx)
      | some x =>
          obtain ⟨hx, htied⟩ := find_some hfind
          obtain ⟨hrem, hless, -⟩ := h₀.removeElem hx
          obtain ⟨h', hre, hinv, hcont, hlight⟩ :=
            hrem.inserted horder (h₀.removed_apart horder hx htied) malloc
          have hsame : (h.removeElem x).bucketCnt = h.bucketCnt := rfl
          rw [hsame] at hre
          refine ⟨.elem (some x), h', by simp [hre], hinv, ?_, fun hm _ => hlight hm⟩
          rw [hcont, hless]
          exact .replaceMet (hmem.mpr hx) htied
  | find e =>
      cases hfind : h.find hash less e with
      | none =>
          refine ⟨.elem none, h, by simp only [Hash.step, hfind], h₀, ?_, fun _ => id⟩
          exact .find fun x hx => h₀.find_none hhash hfind x (hmem.mp hx)
      | some x =>
          obtain ⟨hx, htied⟩ := find_some hfind
          exact ⟨.elem (some x), h, by simp only [Hash.step, hfind], h₀,
            .findMet (hmem.mpr hx) htied, fun _ => id⟩
  | delete e =>
      simp only [Hash.step, hashDelete]
      cases hfind : h.find hash less e with
      | none =>
          refine ⟨.elem none, h, rfl, h₀, ?_, fun _ => id⟩
          exact .delete fun x hx => h₀.find_none hhash hfind x (hmem.mp hx)
      | some x =>
          obtain ⟨hx, htied⟩ := find_some hfind
          obtain ⟨hrem, hless, -⟩ := h₀.removeElem hx
          obtain ⟨h', hre, hinv, hcont, hlight⟩ := hrem.rehash malloc
          refine ⟨.elem (some x), h', by simp [hre], hinv, ?_, fun hm _ => hlight hm⟩
          rw [hcont, hless]
          exact .deleteMet (hmem.mpr hx) htied
  | clear =>
      obtain ⟨hinv, hcont, hlight⟩ := h₀.hashClear
      refine ⟨_, _, rfl, hinv, ?_, fun _ _ => hlight⟩
      rw [hcont]
      exact .clear h₀.nodup rfl
  | apply => exact ⟨_, h, rfl, h₀, .apply h₀.nodup rfl, fun _ => id⟩
  | size =>
      refine ⟨.count h.elemCnt, h, rfl, h₀, ?_, fun _ => id⟩
      have hcard : h.elemCnt = h.contents.card := by
        rw [contents, List.toFinset_card_of_nodup h₀.nodup, h₀.elems]
      rw [hcard]
      exact .size

/-- A list of calls, one after the other: all return, with the answers of the set. -/
theorem Inv.run (h₀ : Inv hash less h) (horder : StrictWeakOn less Set.univ)
    (hhash : ∀ x y, Tied less x y → hash x = hash y) (cs : List (HashCall α × Bool)) :
    ∃ rs h', h.run hash less cs = some (rs, h') ∧ Inv hash less h' ∧
      TableRun less h.contents (cs.map Prod.fst) rs h'.contents ∧
      ((∀ c ∈ cs, c.2 = true) → Light h → Light h') := by
  induction cs generalizing h with
  | nil => exact ⟨[], h, rfl, h₀, .nil, fun _ => id⟩
  | cons c rest ih =>
      obtain ⟨call, malloc⟩ := c
      obtain ⟨r, h₁, hstep, hinv, htable, hlight⟩ := h₀.step horder hhash malloc call
      obtain ⟨rs, h', hrun, hinv', hrest, hlight'⟩ := ih hinv
      refine ⟨r :: rs, h', by simp [Hash.run, hstep, hrun], hinv', .cons htable hrest, ?_⟩
      intro hall hl
      obtain ⟨hm, hrest⟩ := List.forall_mem_cons.mp hall
      exact hlight' hrest (hlight hm hl)

/-- Every run of calls on a new table ends, and answers as a set of elements does of which no two are
tied, whenever `malloc` fails; if it never does, there are less than four elements for each bucket. -/
theorem hash_table (horder : StrictWeakOn less Set.univ)
    (hhash : ∀ x y, Tied less x y → hash x = hash y) (hinit : hashInit true = some h)
    (cs : List (HashCall α × Bool)) :
    ∃ rs h', h.run hash less cs = some (rs, h') ∧
      TableRun less ∅ (cs.map Prod.fst) rs h'.contents ∧
      (∃ k, 2 ≤ k ∧ h'.bucketCnt = 2 ^ k) ∧
      ((∀ c ∈ cs, c.2 = true) → h'.elemCnt < 4 * h'.bucketCnt) := by
  cases hinit
  have hinv₀ : Inv hash less { elemCnt := 0, bucketCnt := 4, buckets := List.replicate 4 [] } := .init
  obtain ⟨rs, h', hrun, hinv, htable, hlight⟩ := hinv₀.run horder hhash cs
  exact ⟨rs, h', hrun, htable, hinv.pow, fun hall => hlight hall (show 0 < 4 * 4 by decide)⟩

/-- Numbers with the same half are tied. -/
def byHalf (a b : Nat) : Bool := decide (a / 2 < b / 2)

def hashHalf (x : Nat) : UInt32 := UInt32.ofNat (x / 2)

theorem byHalf_order : StrictWeakOn byHalf Set.univ := strictWeakOn_key (fun x => x / 2) Set.univ

theorem hashHalf_eq (x y : Nat) (ht : Tied byHalf x y) : hashHalf x = hashHalf y := by
  have hhalf : x / 2 = y / 2 := by
    simp only [Tied, byHalf, decide_eq_false_iff_not] at ht
    omega
  rw [hashHalf, hashHalf, hhalf]

/-- The second number comes to the first. -/
theorem hash_table_small :
    ∃ rs h', Hash.run hashHalf byHalf ⟨0, 4, [[], [], [], []]⟩ [(.insert 4, true), (.insert 5, false)]
        = some (rs, h') ∧
      TableRun byHalf ∅ [.insert 4, .insert 5] rs h'.contents ∧
      (∃ k, 2 ≤ k ∧ h'.bucketCnt = 2 ^ k) ∧
      ((∀ c ∈ [(HashCall.insert 4, true), (.insert 5, false)], c.2 = true) →
        h'.elemCnt < 4 * h'.bucketCnt) :=
  hash_table byHalf_order hashHalf_eq rfl _

/-! ## Iterators -/

/-- `struct hash_iterator`: the bucket, and how many steps `elem` is from the head of its list; `none`
is the null pointer. -/
structure HashIterator where
  bucket : Nat
  elem : Option Nat

/-- The loop of `hash_next`, with so many buckets after `b`: on from where the list may have ended. -/
def settle (h : Hash α) : Nat → Nat → Nat → HashIterator
  | 0, b, p => if p ≤ (h.buckets.getD b []).length then ⟨b, some p⟩ else ⟨b + 1, none⟩
  | n + 1, b, p => if p ≤ (h.buckets.getD b []).length then ⟨b, some p⟩ else h.settle n (b + 1) 1

/-- `hash_first`. -/
def hashFirst : HashIterator := ⟨0, some 0⟩

/-- `hash_next`; from a null pointer there is no next. -/
def hashNext (h : Hash α) (i : HashIterator) : HashIterator :=
  match i.elem with
  | some p => h.settle (h.bucketCnt - 1 - i.bucket) i.bucket (p + 1)
  | none => i

/-- `hash_cur`. -/
def hashCur (h : Hash α) (i : HashIterator) : Option α :=
  i.elem.bind fun p => (h.buckets.getD i.bucket [])[p - 1]?

/-- The iteration idiom of `hash_first`: the elements the loop
is run for; `none` if it goes on after so many rounds. -/
def hashWalk (h : Hash α) : Nat → HashIterator → Option (List α)
  | 0, _ => none
  | fuel + 1, i =>
      match h.hashCur (h.hashNext i) with
      | some e => (h.hashWalk fuel (h.hashNext i)).map (e :: ·)
      | none => some []

/-- What comes after step `p` in bucket `b`. -/
def ahead (h : Hash α) (b p : Nat) : List α :=
  (h.buckets.getD b []).drop p ++ (h.buckets.drop (b + 1)).flatten

omit [DecidableEq α] in
theorem ahead_next {b : Nat} (hb : b + 1 < h.buckets.length) {p : Nat}
    (hp : (h.buckets.getD b []).length ≤ p) : h.ahead b p = h.ahead (b + 1) 0 := by
  rw [ahead, ahead, List.drop_eq_nil_of_le hp, List.nil_append, List.drop_eq_getElem_cons hb,
    List.flatten_cons, List.drop_zero, List.getD_eq_getElem?_getD, List.getElem?_eq_getElem hb,
    Option.getD_some]

omit [DecidableEq α] in
/-- The loop stops at the next element there is, or at the end of the last bucket. -/
theorem settle_spec {n b p : Nat} (hn : b + n + 1 = h.buckets.length) :
    (h.ahead b p = [] ∧ h.hashCur (h.settle n b (p + 1)) = none) ∨
      ∃ e b' q, h.ahead b p = e :: h.ahead b' q ∧ b' < h.buckets.length ∧
        h.settle n b (p + 1) = ⟨b', some q⟩ ∧ h.hashCur ⟨b', some q⟩ = some e := by
  -- an element that is in the bucket
  have hhere : ∀ {b p : Nat}, b < h.buckets.length → p + 1 ≤ (h.buckets.getD b []).length →
      ∃ e, h.ahead b p = e :: h.ahead b (p + 1) ∧ h.hashCur ⟨b, some (p + 1)⟩ = some e := by
    intro b p hb hp
    refine ⟨(h.buckets.getD b []).get ⟨p, hp⟩, ?_, ?_⟩
    · rw [ahead, ahead, List.drop_eq_getElem_cons hp, List.cons_append]
      rfl
    · simp only [hashCur, Option.bind_some, Nat.add_sub_cancel]
      exact List.getElem?_eq_getElem hp
  induction n generalizing b p with
  | zero =>
      by_cases hp : p + 1 ≤ (h.buckets.getD b []).length
      · obtain ⟨e, hahead, hcur⟩ := hhere (by omega) hp
        exact .inr ⟨e, b, p + 1, hahead, by omega, by rw [settle, if_pos hp], hcur⟩
      · left
        rw [ahead, List.drop_eq_nil_of_le (by omega), List.drop_eq_nil_of_le (by omega), settle,
          if_neg hp]
        exact ⟨rfl, rfl⟩
  | succ n ih =>
      by_cases hp : p + 1 ≤ (h.buckets.getD b []).length
      · obtain ⟨e, hahead, hcur⟩ := hhere (by omega) hp
        exact .inr ⟨e, b, p + 1, hahead, by omega, by rw [settle, if_pos hp], hcur⟩
      · rw [settle, if_neg hp, ahead_next (by omega) (by omega)]
        exact ih (by omega)

omit [DecidableEq α] in
/-- The iteration, from a place in a bucket on, comes to all that is ahead of it. -/
theorem walk_eq (hcnt : h.buckets.length = h.bucketCnt) {fuel b p : Nat} (hb : b < h.buckets.length)
    (hfuel : (h.ahead b p).length < fuel) : h.hashWalk fuel ⟨b, some p⟩ = some (h.ahead b p) := by
  induction fuel generalizing b p with
  | zero => omega
  | succ fuel ih =>
      have hnext : h.hashNext ⟨b, some p⟩ = h.settle (h.bucketCnt - 1 - b) b (p + 1) := rfl
      rw [hashWalk, hnext]
      rcases settle_spec (h := h) (n := h.bucketCnt - 1 - b) (b := b) (p := p) (by omega) with
        ⟨hahead, hcur⟩ | ⟨e, b', q, hahead, hb', hsettle, hcur⟩
      · rw [hcur, hahead]
      · rw [hahead, List.length_cons] at hfuel
        have hrest := ih (p := q) hb' (by omega)
        rw [hsettle, hcur, hahead]
        show (h.hashWalk fuel ⟨b', some q⟩).map (e :: ·) = _
        rw [hrest, Option.map_some]

/-- After any run, the iteration idiom comes to each element once, and ends. -/
theorem hash_iterates (horder : StrictWeakOn less Set.univ)
    (hhash : ∀ x y, Tied less x y → hash x = hash y) (hinit : hashInit true = some h)
    {cs : List (HashCall α × Bool)} {rs : List (HashAnswer α)}
    (hrun : h.run hash less cs = some (rs, h')) :
    ∃ l, h'.hashWalk (h'.elemCnt + 1) hashFirst = some l ∧ l.Nodup ∧ l.toFinset = h'.contents := by
  cases hinit
  have hinv₀ : Inv hash less { elemCnt := 0, bucketCnt := 4, buckets := List.replicate 4 [] } := .init
  obtain ⟨rs', h₁, hrun', hinv, -⟩ := hinv₀.run horder hhash cs
  rw [hrun] at hrun'
  cases hrun'
  obtain ⟨k, -, hpow⟩ := hinv.pow
  have hpos : 0 < h'.buckets.length := by
    rw [hinv.cnt, hpow]
    exact Nat.two_pow_pos k
  have hall : h'.ahead 0 0 = h'.buckets.flatten := by
    rw [ahead, List.drop_zero, List.getD_eq_getElem?_getD, List.getElem?_eq_getElem hpos,
      Option.getD_some, ← List.flatten_cons, ← List.drop_eq_getElem_cons hpos, List.drop_zero]
  refine ⟨h'.buckets.flatten, ?_, hinv.nodup, rfl⟩
  rw [hashFirst, walk_eq hinv.cnt hpos (by rw [hall, hinv.elems]; omega), hall]

/-- The table grows while seventeen elements are inserted.  One of them is deleted. -/
theorem hash_iterates_small : ∃ rs h',
    Hash.run hashHalf byHalf ⟨0, 4, [[], [], [], []]⟩
      ((List.range 17).map (fun i => (.insert (2 * i), true)) ++ [(.delete 6, true)]) = some (rs, h') ∧
    h'.bucketCnt = 8 ∧ h'.elemCnt = 16 ∧
      ∃ l, h'.hashWalk 17 hashFirst = some l ∧ l.Nodup ∧ l.toFinset = h'.contents := by
  have hcalls : (Hash.run hashHalf byHalf ⟨0, 4, [[], [], [], []]⟩
      ((List.range 17).map (fun i => (.insert (2 * i), true)) ++ [(.delete 6, true)])).map
        (fun x => (x.2.bucketCnt, x.2.elemCnt)) = some (8, 16) := by decide +kernel
  obtain ⟨⟨rs, h'⟩, hrun, hcnt⟩ := Option.map_eq_some_iff.mp hcalls
  obtain ⟨hbuckets, helems⟩ := Prod.mk.inj hcnt
  obtain ⟨l, hwalk, hnodup, hall⟩ := hash_iterates byHalf_order hashHalf_eq rfl hrun
  rw [helems] at hwalk
  exact ⟨rs, h', hrun, hbuckets, helems, l, hwalk, hnodup, hall⟩

end Hash

end CS162.Kernel
