import YabroOS.Lib.GrowArray
import YabroOS.Lib.LittleEndian

namespace YabroOS.Libc

open Lib

/-- `heap_init`, `heap_cur`, `heap_end`, the break of the process and its memory. -/
structure Heap where
  init : Bool
  cur : ℕ
  limit : ℕ
  brk : ℕ
  mem : ℕ → UInt8

def align16 (n : ℕ) : ℕ := (n + 15) % 2 ^ 64 / 16 * 16

namespace Heap

def setup (h : Heap) : Heap :=
  if h.init then h else { h with init := true, cur := h.brk, limit := h.brk }

def need (n : ℕ) : ℕ := align16 ((n + 8) % 2 ^ 64)

def grow (n : ℕ) : ℕ := (need n + 4095) % 2 ^ 64 / 4096 * 4096

def room (h : Heap) : ℕ := (h.limit + 2 ^ 64 - h.cur) % 2 ^ 64

def block (h : Heap) (n : ℕ) : Heap × ℕ :=
  ({ h with mem := put h.mem h.cur (toLE 8 n), cur := (h.cur + need n) % 2 ^ 64 },
    (h.cur + 8) % 2 ^ 64)

def malloc (h : Heap) (answer n : ℕ) : Heap × ℕ :=
  let n := if n = 0 then 1 else n
  let h := h.setup
  if h.room < need n then
    let want := (h.limit + grow n) % 2 ^ 64
    if answer ≠ want then (h, 0) else ({ h with limit := want, brk := want }).block n
  else h.block n

def calloc (h : Heap) (answer n s : ℕ) : Heap × ℕ :=
  if s ≠ 0 ∧ (2 ^ 64 - 1) / s < n then (h, 0)
  else
    let z := n * s % 2 ^ 64
    let (h, p) := h.malloc answer z
    if p = 0 then (h, 0) else ({ h with mem := put h.mem p (List.replicate z 0) }, p)

def size (h : Heap) (p : ℕ) : ℕ := ofLE ((List.range 8).map fun i ↦ h.mem (p - 8 + i))

def realloc (h : Heap) (answer p n : ℕ) : Heap × ℕ :=
  if p = 0 then h.malloc answer n
  else if n = 0 then (h, 0)
  else
    let (h, q) := h.malloc answer n
    if q = 0 then (h, 0)
    else ({ h with mem := put h.mem q ((List.range (min (h.size p) n)).map fun i ↦ h.mem (p + i)) },
      q)

end Heap

/-- A call of the program with what `brk` answers, or a store of the program to its memory. -/
inductive HeapCall
  | malloc (answer n : UInt64)
  | calloc (answer n s : UInt64)
  | realloc (answer p n : UInt64)
  | free (p : UInt64)
  | store (a : ℕ) (b : UInt8)

/-- The heap with the blocks returned so far, oldest first: their pointers and their sizes. -/
structure HeapRun where
  heap : Heap
  blocks : List (ℕ × ℕ)

namespace HeapCall

/-- The size that is asked for, none where `malloc` is not called. -/
def request : HeapCall → Option ℕ
  | .malloc _ n => some n.toNat
  | .calloc _ n s =>
    if s.toNat ≠ 0 ∧ (2 ^ 64 - 1) / s.toNat < n.toNat then none
    else some (n.toNat * s.toNat % 2 ^ 64)
  | .realloc _ p n => if p.toNat ≠ 0 ∧ n.toNat = 0 then none else some n.toNat
  | .free _ => none
  | .store _ _ => none

def answer : HeapCall → ℕ
  | .malloc answer _ => answer.toNat
  | .calloc answer _ _ => answer.toNat
  | .realloc answer _ _ => answer.toNat
  | .free _ => 0
  | .store _ _ => 0

def perform (h : Heap) : HeapCall → Heap × ℕ
  | .malloc answer n => h.malloc answer.toNat n.toNat
  | .calloc answer n s => h.calloc answer.toNat n.toNat s.toNat
  | .realloc answer p n => h.realloc answer.toNat p.toNat n.toNat
  | .free _ => (h, 0)
  | .store a b => ({ h with mem := put h.mem a [b] }, 0)

end HeapCall

namespace HeapRun

def start (brk : UInt64) (mem : ℕ → UInt8) : HeapRun := ⟨⟨false, 0, 0, brk.toNat, mem⟩, []⟩

def step (s : HeapRun) (c : HeapCall) : HeapRun :=
  let (h, p) := c.perform s.heap
  ⟨h, match c.request with
    | some n => if p = 0 then s.blocks else s.blocks ++ [(p, max n 1)]
    | none => s.blocks⟩

/-- The program passes what it got, and stores only to its blocks. -/
def Allowed (s : HeapRun) : HeapCall → Prop
  | .realloc _ p _ => p.toNat = 0 ∨ ∃ m, (p.toNat, m) ∈ s.blocks
  | .store a _ => ∃ p m, (p, m) ∈ s.blocks ∧ p ≤ a ∧ a < p + m
  | _ => True

/-- No sum of the call wraps: that of the size, the header and the rounding, nor, where the heap has
to grow, that of the rounding to pages and of the new end. -/
def Fits (s : HeapRun) (c : HeapCall) : Prop :=
  ∀ n ∈ c.request, max n 1 + 23 < 2 ^ 64 ∧
    (s.heap.setup.room < Heap.need (max n 1) → Heap.need (max n 1) + 4095 < 2 ^ 64 ∧
      s.heap.setup.limit + Heap.grow (max n 1) < 2 ^ 64)

/-- All calls of a list meet a condition where they are made. -/
def Along (P : HeapRun → HeapCall → Prop) : HeapRun → List HeapCall → Prop
  | _, [] => True
  | s, c :: l => P s c ∧ Along P (s.step c) l

def run (s : HeapRun) (l : List HeapCall) : HeapRun := l.foldl step s

/-- The blocks with their headers lie one after the other between the initial break and the end of
the heap. -/
structure Sound (brk : UInt64) (s : HeapRun) : Prop where
  apart : s.blocks.Pairwise fun a b ↦ a.1 + a.2 ≤ b.1 - 8 ∧ 8 ≤ b.1
  inside : ∀ b ∈ s.blocks, brk.toNat ≤ b.1 - 8 ∧ 8 ≤ b.1 ∧ b.1 + b.2 ≤ s.heap.cur
  cur_le : s.heap.cur ≤ s.heap.limit
  granted : s.heap.init = true → s.heap.limit = s.heap.brk

structure Serves (s : HeapRun) (c : HeapCall) : Prop where
  cur_le : s.heap.cur ≤ (s.step c).heap.cur
  kept : ∀ b ∈ s.blocks, ∀ i < b.2, (∀ a x, c = .store a x → a ≠ b.1 + i) →
    (c.perform s.heap).1.mem (b.1 + i) = s.heap.mem (b.1 + i)
  zero : ∀ answer n m, c = .calloc answer n m → (c.perform s.heap).2 ≠ 0 →
    n.toNat * m.toNat < 2 ^ 64 ∧
      ∀ i < n.toNat * m.toNat, (c.perform s.heap).1.mem ((c.perform s.heap).2 + i) = 0
  copied : ∀ answer p n m, c = .realloc answer p n → (p.toNat, m) ∈ s.blocks →
    (c.perform s.heap).2 ≠ 0 →
    ∀ i < min m n.toNat, (c.perform s.heap).1.mem ((c.perform s.heap).2 + i) =
      s.heap.mem (p.toNat + i)
  unsatisfied : ∀ n ∈ c.request, s.heap.setup.room < Heap.need (max n 1) →
    c.answer ≠ s.heap.setup.limit + Heap.grow (max n 1) → (c.perform s.heap).2 = 0
  overflow : ∀ answer n m, c = .calloc answer n m → 2 ^ 64 ≤ n.toNat * m.toNat →
    (c.perform s.heap).2 = 0
  refused : (c.perform s.heap).2 = 0 → (∀ a x, c ≠ .store a x) →
    (c.perform s.heap).1 = s.heap ∨ (c.perform s.heap).1 = s.heap.setup

end HeapRun

section Memory

variable {m : ℕ → UInt8} {a k : ℕ} {l : List UInt8}

theorem put_inside (h : k < l.length) : put m a l (a + k) = l[k] := by
  rw [put, if_neg (by omega), Nat.add_sub_cancel_left, List.getElem?_eq_getElem h, Option.getD_some]

theorem put_outside (h : k < a ∨ a + l.length ≤ k) : put m a l k = m k := by
  rw [put]
  split_ifs with hlt
  · rfl
  · rw [List.getElem?_eq_none (by omega), Option.getD_none]

end Memory

namespace Heap

variable {h h' : Heap} {low answer n p q : ℕ} {r : Heap × ℕ}

theorem size_congr (hmem : ∀ i < 8, h'.mem (p - 8 + i) = h.mem (p - 8 + i)) :
    h'.size p = h.size p := by
  rw [size, size]
  refine congrArg ofLE (List.map_congr_left fun i hi ↦ hmem i (List.mem_range.1 hi))

structure Good (low : ℕ) (h : Heap) : Prop where
  init : h.init = true
  low_le : low ≤ h.cur
  cur_le : h.cur ≤ h.limit
  lt : h.limit < 2 ^ 64
  granted : h.limit = h.brk

/-- A block of `n` bytes is cut off the front of the free space. -/
structure Extends (low : ℕ) (h h' : Heap) (q n : ℕ) : Prop where
  place : q = h.cur + 8
  good : h'.Good low
  fits : q + n ≤ h'.cur
  below : ∀ a < h.cur, h'.mem a = h.mem a
  size : h'.size q = n

theorem Good.setup (hg : h.Good low) : h.setup = h := by rw [Heap.setup, if_pos hg.init]

theorem Good.room (hg : h.Good low) : h.room = h.limit - h.cur := by
  have hle := hg.cur_le
  have hlt := hg.lt
  have hsum : h.limit + 2 ^ 64 - h.cur = h.limit - h.cur + 2 ^ 64 := by omega
  rw [Heap.room, hsum, Nat.add_mod_right, Nat.mod_eq_of_lt (by omega)]

theorem need_eq (hn : n + 23 < 2 ^ 64) : n + 8 ≤ need n ∧ need n ≤ n + 23 := by
  rw [need, align16, Nat.mod_eq_of_lt (show n + 8 < 2 ^ 64 by omega), Nat.mod_eq_of_lt (by omega)]
  omega

theorem grow_eq (hn : need n + 4095 < 2 ^ 64) : need n ≤ grow n := by
  rw [grow, Nat.mod_eq_of_lt hn]
  omega

theorem block_extends (hg : h.Good low) (hn : n + 23 < 2 ^ 64) (hroom : h.cur + need n ≤ h.limit) :
    Extends low h (h.block n).1 (h.block n).2 n := by
  obtain ⟨hneed, -⟩ := need_eq hn
  have hlt := hg.lt
  have hcur : (h.cur + need n) % 2 ^ 64 = h.cur + need n := Nat.mod_eq_of_lt (by omega)
  have hplace : (h.cur + 8) % 2 ^ 64 = h.cur + 8 := Nat.mod_eq_of_lt (by omega)
  have hlow := hg.low_le
  refine ⟨hplace, ⟨hg.init, ?_, ?_, hlt, hg.granted⟩, ?_, fun a ha ↦ put_outside (.inl ha), ?_⟩
  · show low ≤ (h.cur + need n) % 2 ^ 64
    omega
  · show (h.cur + need n) % 2 ^ 64 ≤ h.limit
    omega
  · show (h.cur + 8) % 2 ^ 64 + n ≤ (h.cur + need n) % 2 ^ 64
    omega
  · have hbytes : (List.range 8).map (fun i ↦ put h.mem h.cur (toLE 8 n) (h.cur + i)) =
        toLE 8 n := by
      refine List.ext_getElem (by rw [List.length_map, List.length_range, length_toLE])
        fun i h₁ h₂ ↦ ?_
      rw [List.getElem_map, List.getElem_range, put_inside h₂]
    rw [Heap.size]
    show ofLE ((List.range 8).map fun i ↦
      put h.mem h.cur (toLE 8 n) ((h.cur + 8) % 2 ^ 64 - 8 + i)) = n
    rw [hplace, Nat.add_sub_cancel, hbytes, ofLE_toLE_of_lt (by omega)]

theorem malloc_cases (hg : h.setup.Good low) (hn : max n 1 + 23 < 2 ^ 64)
    (hfit : h.setup.room < need (max n 1) → need (max n 1) + 4095 < 2 ^ 64 ∧
      h.setup.limit + grow (max n 1) < 2 ^ 64) :
    (h.setup.room < need (max n 1) ∧ answer ≠ h.setup.limit + grow (max n 1) ∧
      h.malloc answer n = (h.setup, 0)) ∨
      (¬(h.setup.room < need (max n 1) ∧ answer ≠ h.setup.limit + grow (max n 1)) ∧
        Extends low h.setup (h.malloc answer n).1 (h.malloc answer n).2 (max n 1)) := by
  have hmax : (if n = 0 then 1 else n) = max n 1 := by split_ifs <;> omega
  rw [malloc, hmax]
  dsimp only
  split_ifs with hroom hanswer
  · obtain ⟨-, hlimit⟩ := hfit hroom
    rw [Nat.mod_eq_of_lt hlimit] at hanswer
    exact .inl ⟨hroom, hanswer, rfl⟩
  · obtain ⟨hneed, hlimit⟩ := hfit hroom
    rw [Nat.mod_eq_of_lt hlimit] at hanswer ⊢
    refine .inr ⟨fun hno ↦ hanswer hno.2, ?_⟩
    have hgrow := grow_eq hneed
    have hle := hg.cur_le
    have hgood : Good low
        { h.setup with
          limit := h.setup.limit + grow (max n 1), brk := h.setup.limit + grow (max n 1) } :=
      ⟨hg.init, hg.low_le, by simp only; omega, hlimit, rfl⟩
    obtain ⟨h₁, h₂, h₃, h₄, h₅⟩ := block_extends hgood hn (by simp only; omega)
    exact ⟨h₁, h₂, h₃, h₄, h₅⟩
  · refine .inr ⟨fun hno ↦ hroom hno.1, block_extends hg hn ?_⟩
    rw [hg.room] at hroom
    have hle := hg.cur_le
    omega

theorem Extends.fill (he : Extends low h h' q n) (l : List UInt8) :
    Extends low h { h' with mem := put h'.mem q l } q n := by
  obtain ⟨hplace, ⟨hi, h₁, h₂, h₃, h₄⟩, hfits, hbelow, hsize⟩ := he
  refine ⟨hplace, ⟨hi, h₁, h₂, h₃, h₄⟩, hfits, fun a ha ↦ ?_, ?_⟩
  · exact (put_outside (.inl (by omega))).trans (hbelow a ha)
  · rw [← hsize]
    exact size_congr fun i hi ↦ put_outside (.inl (by omega))

def fill (r : Heap × ℕ) (l : List UInt8) : Heap × ℕ :=
  if r.2 = 0 then (r.1, 0) else ({ r.1 with mem := put r.1.mem r.2 l }, r.2)

theorem calloc_eq (h : Heap) (answer n s : ℕ) (hover : ¬(s ≠ 0 ∧ (2 ^ 64 - 1) / s < n)) :
    h.calloc answer n s = fill (h.malloc answer (n * s % 2 ^ 64))
    (List.replicate (n * s % 2 ^ 64) 0) := by
  rewrite [calloc, if_neg hover, fill]
  show (match h.malloc answer (n * s % 2 ^ 64) with
    | (h, p) =>
      if p = 0 then (h, 0)
      else ({ h with mem := put h.mem p (List.replicate (n * s % 2 ^ 64) 0) }, p)) = _
  -- the sums modulo `2 ^ 64` inside `malloc` must not be unfolded
  obtain ⟨h', q⟩ := h.malloc answer (n * s % 2 ^ 64)
  rfl

theorem realloc_eq (h : Heap) (answer p n : ℕ) (hp : p ≠ 0) (hn : n ≠ 0) :
    h.realloc answer p n = fill (h.malloc answer n)
      ((List.range (min ((h.malloc answer n).1.size p) n)).map fun i ↦
        (h.malloc answer n).1.mem (p + i)) := by
  rewrite [realloc, if_neg hp, if_neg hn, fill]
  obtain ⟨h', q⟩ := h.malloc answer n
  rfl

theorem fill_cases {A B : Prop} (l : List UInt8)
    (hr : (A ∧ B ∧ r = (h, 0)) ∨ (¬(A ∧ B) ∧ Extends low h r.1 r.2 n)) :
    (A ∧ B ∧ fill r l = (h, 0)) ∨ (¬(A ∧ B) ∧ Extends low h (fill r l).1 (fill r l).2 n) := by
  rcases hr with ⟨h₁, h₂, rfl⟩ | ⟨h₁, he⟩
  · exact .inl ⟨h₁, h₂, rfl⟩
  · have hpos : r.2 ≠ 0 := by
      rw [he.place]
      exact Nat.succ_ne_zero _
    rw [fill, if_neg hpos]
    exact .inr ⟨h₁, he.fill l⟩

theorem fill_mem {l : List UInt8} (hp : (fill r l).2 ≠ 0) {i : ℕ} (hi : i < l.length) :
    (fill r l).1.mem ((fill r l).2 + i) = l[i] := by
  rw [fill] at hp ⊢
  by_cases hnull : r.2 = 0
  · rw [if_pos hnull] at hp
    exact absurd rfl hp
  · rw [if_neg hnull]
    exact put_inside hi

theorem fill_null (l : List UInt8) (hr : r.2 = 0) : (fill r l).2 = 0 := by rw [fill, if_pos hr]

end Heap

namespace HeapRun

variable {brk : UInt64} {s : HeapRun} {c : HeapCall} {h : Heap} {q n : ℕ}

structure Inv (brk : UInt64) (s : HeapRun) : Prop where
  sound : s.Sound brk
  good : s.heap.setup.Good brk.toNat
  fresh : s.heap.init = false → s.blocks = [] ∧ s.heap.cur = 0
  size : ∀ b ∈ s.blocks, s.heap.size b.1 = b.2

theorem Sound.apart_or (hs : s.Sound brk) {a b : ℕ × ℕ} (ha : a ∈ s.blocks) (hb : b ∈ s.blocks) :
    a = b ∨ a.1 + a.2 ≤ b.1 - 8 ∨ b.1 + b.2 ≤ a.1 - 8 := by
  refine List.Pairwise.forall_of_forall_of_flip (R := fun a b ↦ a = b ∨ a.1 + a.2 ≤ b.1 - 8 ∨
    b.1 + b.2 ≤ a.1 - 8) (fun _ _ ↦ .inl rfl) ?_ ?_ ha hb
  · exact hs.apart.imp fun h ↦ .inr (.inl h.1)
  · exact hs.apart.imp fun h ↦ .inr (.inr h.1)

theorem inv_start (brk : UInt64) (mem : ℕ → UInt8) : (start brk mem).Inv brk where
  sound := ⟨List.Pairwise.nil, fun _ hb ↦ absurd hb List.not_mem_nil, Nat.le_refl 0, nofun⟩
  good := ⟨rfl, Nat.le_refl _, Nat.le_refl _, brk.toNat_lt, rfl⟩
  fresh _ := ⟨rfl, rfl⟩
  size _ hb := absurd hb List.not_mem_nil

theorem Inv.setup_of_mem (hs : s.Inv brk) {b : ℕ × ℕ} (hb : b ∈ s.blocks) :
    s.heap.setup = s.heap := by
  cases hi : s.heap.init with
  | true => rw [Heap.setup, if_pos hi]
  | false =>
    rw [(hs.fresh hi).1] at hb
    cases hb

theorem setup_mem : s.heap.setup.mem = s.heap.mem := by
  rw [Heap.setup]
  split_ifs <;> rfl

theorem Inv.cur_le_setup (hs : s.Inv brk) : s.heap.cur ≤ s.heap.setup.cur := by
  cases hi : s.heap.init with
  | true => rw [Heap.setup, if_pos hi]
  | false =>
    rw [(hs.fresh hi).2]
    exact Nat.zero_le _

theorem Inv.setup (hs : s.Inv brk) : Inv brk ⟨s.heap.setup, s.blocks⟩ where
  sound := by
    refine ⟨hs.sound.apart, fun b hb ↦ ?_, hs.good.cur_le, fun _ ↦ hs.good.granted⟩
    have := hs.sound.inside b hb
    have := hs.cur_le_setup
    dsimp only
    omega
  good := by
    rw [hs.good.setup]
    exact hs.good
  fresh hi := by
    have := hs.good.init
    rw [hi] at this
    cases this
  size b hb := by
    rw [← hs.size b hb]
    exact Heap.size_congr fun i _ ↦ congrFun setup_mem _

theorem Inv.extend (hs : s.Inv brk) (he : Heap.Extends brk.toNat s.heap.setup h q n) :
    Inv brk ⟨h, s.blocks ++ [(q, n)]⟩ := by
  obtain ⟨hplace, hgood, hfits, hbelow, hsize⟩ := he
  have hinside : ∀ b ∈ s.blocks, brk.toNat ≤ b.1 - 8 ∧ 8 ≤ b.1 ∧ b.1 + b.2 ≤ s.heap.setup.cur := by
    intro b hb
    have h₁ := hs.sound.inside b hb
    have h₂ := hs.cur_le_setup
    omega
  have hlow := hs.good.low_le
  refine ⟨⟨?_, fun b hb ↦ ?_, hgood.cur_le, fun _ ↦ hgood.granted⟩, ?_, fun hi ↦ ?_, fun b hb ↦ ?_⟩
  · refine List.pairwise_append.2 ⟨hs.sound.apart, List.pairwise_singleton _ _, fun a ha b hb ↦ ?_⟩
    obtain rfl := List.mem_singleton.1 hb
    have := hinside a ha
    simp only
    omega
  · rcases List.mem_append.1 hb with hb | hb
    · have := hinside b hb
      simp only
      omega
    · obtain rfl := List.mem_singleton.1 hb
      simp only
      omega
  · rw [hgood.setup]
    exact hgood
  · rw [hgood.init] at hi
    cases hi
  · rcases List.mem_append.1 hb with hb | hb
    · rw [← hs.size b hb]
      have := hinside b hb
      refine Heap.size_congr fun i hi ↦ (hbelow _ (by omega)).trans ?_
      rw [setup_mem]
    · obtain rfl := List.mem_singleton.1 hb
      exact hsize

/-- What a call with a request comes to: it is refused, or it has a new block behind all others,
which `calloc` and `realloc` have filled. -/
theorem Inv.perform_cases (hs : s.Inv brk) (hn : c.request = some n) (hfits : s.Fits c) :
    (s.heap.setup.room < Heap.need (max n 1) ∧ c.answer ≠ s.heap.setup.limit + Heap.grow (max n 1) ∧
        c.perform s.heap = (s.heap.setup, 0)) ∨
      (¬(s.heap.setup.room < Heap.need (max n 1) ∧
        c.answer ≠ s.heap.setup.limit + Heap.grow (max n 1)) ∧
        Heap.Extends brk.toNat s.heap.setup (c.perform s.heap).1 (c.perform s.heap).2 (max n 1)) := by
  obtain ⟨hlen, hgrow⟩ := hfits n hn
  have hcases : ∀ answer, _ :=
    fun answer ↦ @Heap.malloc_cases s.heap brk.toNat answer n hs.good hlen hgrow
  cases c with
  | malloc answer m =>
    obtain rfl := Option.some.inj hn
    exact hcases answer.toNat
  | calloc answer k m =>
    rw [HeapCall.request] at hn
    split_ifs at hn with hover
    obtain rfl := Option.some.inj hn
    rewrite [HeapCall.perform, Heap.calloc_eq _ _ _ _ hover]
    exact Heap.fill_cases _ (hcases answer.toNat)
  | realloc answer p m =>
    rw [HeapCall.request] at hn
    split_ifs at hn with hfree
    obtain rfl := Option.some.inj hn
    rcases eq_or_ne p.toNat 0 with hp | hp
    · rewrite [HeapCall.perform, Heap.realloc, if_pos hp]
      exact hcases answer.toNat
    rewrite [HeapCall.perform, Heap.realloc_eq _ _ _ _ hp fun hm ↦ hfree ⟨hp, hm⟩]
    exact Heap.fill_cases _ (hcases answer.toNat)
  | free p => cases hn
  | store a b => cases hn

theorem perform_none (hn : c.request = none) (hc : ∀ a x, c ≠ .store a x) :
    c.perform s.heap = (s.heap, 0) := by
  cases c with
  | malloc answer m => cases hn
  | calloc answer k m =>
    rw [HeapCall.request] at hn
    split_ifs at hn with hover
    rw [HeapCall.perform, Heap.calloc, if_pos hover]
  | realloc answer p m =>
    rw [HeapCall.request] at hn
    split_ifs at hn with hfree
    rw [HeapCall.perform, Heap.realloc, if_neg hfree.1, if_pos hfree.2]
  | free p => rfl
  | store a b => exact absurd rfl (hc a b)

theorem Inv.store (hs : s.Inv brk) {a : ℕ} (x : UInt8) (ha : s.Allowed (.store a x)) :
    Inv brk ⟨{ s.heap with mem := put s.heap.mem a [x] }, s.blocks⟩ := by
  obtain ⟨p, m, hp, h₁, h₂⟩ := ha
  have hheap := hs.setup_of_mem hp
  have hgood := hs.good
  rw [hheap] at hgood
  refine ⟨⟨hs.sound.apart, hs.sound.inside, hs.sound.cur_le, hs.sound.granted⟩, ?_, ?_,
    fun b hb ↦ ?_⟩
  · rw [Heap.setup, if_pos hgood.init]
    exact ⟨hgood.init, hgood.low_le, hgood.cur_le, hgood.lt, hgood.granted⟩
  · intro hi
    rw [hgood.init] at hi
    cases hi
  · -- the byte is inside a block, and the header of each block is outside of all blocks
    rw [← hs.size b hb]
    refine Heap.size_congr fun i hi ↦ put_outside ?_
    have hin := hs.sound.inside b hb
    have hin' := hs.sound.inside _ hp
    have hne := hs.sound.apart_or hb hp
    rw [List.length_singleton]
    rcases hne with rfl | hne | hne
    · dsimp only at hin' ⊢
      omega
    · dsimp only at hin' hne
      omega
    · dsimp only at hin' hne
      omega

theorem Inv.step (hs : s.Inv brk) (ha : s.Allowed c) (hfits : s.Fits c) : (s.step c).Inv brk := by
  cases hn : c.request with
  | some n =>
    rcases hs.perform_cases hn hfits with ⟨-, -, hc⟩ | ⟨-, he⟩
    · have hstep : s.step c = ⟨s.heap.setup, s.blocks⟩ := by
        rw [HeapRun.step, hc, hn]
        rfl
      rw [hstep]
      exact hs.setup
    · have hpos : (c.perform s.heap).2 ≠ 0 := by
        rw [he.place]
        exact Nat.succ_ne_zero _
      have hstep : s.step c =
          ⟨(c.perform s.heap).1, s.blocks ++ [((c.perform s.heap).2, max n 1)]⟩ := by
        rw [HeapRun.step, hn]
        dsimp only
        rw [if_neg hpos]
      rw [hstep]
      exact hs.extend he
  | none =>
    have hstep : s.step c = ⟨(c.perform s.heap).1, s.blocks⟩ := by
      rw [HeapRun.step, hn]
    rw [hstep]
    by_cases hc : ∀ a x, c ≠ .store a x
    · rw [perform_none hn hc]
      exact hs
    · push Not at hc
      obtain ⟨a, x, rfl⟩ := hc
      exact hs.store x ha

theorem overflow_iff (n m : ℕ) : m ≠ 0 ∧ (2 ^ 64 - 1) / m < n ↔ 2 ^ 64 ≤ n * m := by
  rcases Nat.eq_zero_or_pos m with rfl | hm
  · simp
  · rw [Nat.div_lt_iff_lt_mul hm]
    omega

theorem calloc_zero {h : Heap} {answer n m : ℕ} (hp : (h.calloc answer n m).2 ≠ 0) :
    n * m < 2 ^ 64 ∧ ∀ i < n * m, (h.calloc answer n m).1.mem ((h.calloc answer n m).2 + i) = 0 := by
  by_cases hover : m ≠ 0 ∧ (2 ^ 64 - 1) / m < n
  · rw [Heap.calloc, if_pos hover] at hp
    exact absurd rfl hp
  have hlt : n * m < 2 ^ 64 := not_le.1 fun hle ↦ hover ((overflow_iff n m).2 hle)
  refine ⟨hlt, fun i hi ↦ ?_⟩
  rewrite [Heap.calloc_eq _ _ _ _ hover, Nat.mod_eq_of_lt hlt] at hp ⊢
  rewrite [Heap.fill_mem hp (by rw [List.length_replicate]; exact hi)]
  exact List.getElem_replicate _

theorem Inv.realloc_copied (hs : s.Inv brk) {answer p n m : ℕ} (hp : (p, m) ∈ s.blocks)
    (hlen : max n 1 + 23 < 2 ^ 64)
    (hgrow : s.heap.setup.room < Heap.need (max n 1) → Heap.need (max n 1) + 4095 < 2 ^ 64 ∧
      s.heap.setup.limit + Heap.grow (max n 1) < 2 ^ 64)
    (hq : (s.heap.realloc answer p n).2 ≠ 0) {i : ℕ} (hi : i < min m n) :
    (s.heap.realloc answer p n).1.mem ((s.heap.realloc answer p n).2 + i) = s.heap.mem (p + i) := by
  obtain ⟨-, hlow, hin⟩ := hs.sound.inside _ hp
  dsimp only at hlow hin
  have hcur := hs.cur_le_setup
  rewrite [Heap.realloc_eq _ _ _ _ (by omega) (by omega)] at hq ⊢
  rcases Heap.malloc_cases hs.good hlen hgrow with ⟨-, -, hnull⟩ | ⟨-, he⟩
  · exact absurd (Heap.fill_null _ (congrArg Prod.snd hnull)) hq
  have hbelow : ∀ a < s.heap.cur, (s.heap.malloc answer n).1.mem a = s.heap.mem a := fun a ha ↦
    (he.below a (by omega)).trans (congrFun setup_mem a)
  have hsize : (s.heap.malloc answer n).1.size p = m := by
    have hsame : (s.heap.malloc answer n).1.size p = s.heap.size p := by
      refine Heap.size_congr fun j hj ↦ hbelow _ ?_
      omega
    have hheader : s.heap.size p = m := hs.size (p, m) hp
    rw [hsame, hheader]
  rewrite [Heap.fill_mem hq (by rw [List.length_map, List.length_range, hsize]; exact hi),
    List.getElem_map, List.getElem_range]
  exact hbelow _ (by omega)

theorem Inv.serves (hs : s.Inv brk) (ha : s.Allowed c) (hfits : s.Fits c) : s.Serves c := by
  have hover : ∀ answer n m, c = .calloc answer n m → 2 ^ 64 ≤ n.toNat * m.toNat →
      (c.perform s.heap).2 = 0 := by
    rintro answer n m rfl hle
    rw [HeapCall.perform, Heap.calloc, if_pos ((overflow_iff _ _).2 hle)]
  have hzero : ∀ answer n m, c = .calloc answer n m → (c.perform s.heap).2 ≠ 0 →
      n.toNat * m.toNat < 2 ^ 64 ∧
        ∀ i < n.toNat * m.toNat, (c.perform s.heap).1.mem ((c.perform s.heap).2 + i) = 0 := by
    rintro answer n m rfl hp
    exact calloc_zero hp
  have hcopied : ∀ answer p n m, c = .realloc answer p n → (p.toNat, m) ∈ s.blocks →
      (c.perform s.heap).2 ≠ 0 →
      ∀ i < min m n.toNat, (c.perform s.heap).1.mem ((c.perform s.heap).2 + i) =
        s.heap.mem (p.toNat + i) := by
    rintro answer p n m rfl hp hq i hi
    obtain ⟨hlen, hgrow⟩ := hfits n.toNat (if_neg fun h ↦ by omega)
    exact hs.realloc_copied hp hlen hgrow hq hi
  have hcur := (hs.step ha hfits).sound
  cases hn : c.request with
  | some n =>
    have hsteps : (s.step c).heap = (c.perform s.heap).1 := rfl
    rcases hs.perform_cases hn hfits with ⟨-, -, hc⟩ | ⟨hroom, he⟩
    · refine ⟨?_, fun b _ i _ _ ↦ ?_, hzero, hcopied, fun _ _ _ _ ↦ by rw [hc], hover,
        fun _ _ ↦ .inr (by rw [hc])⟩
      · rw [hsteps, hc]
        exact hs.cur_le_setup
      · rw [hc]
        exact congrFun setup_mem _
    · have hle := hs.cur_le_setup
      have hfit := he.fits
      have hplace := he.place
      refine ⟨?_, fun b hb i hi _ ↦ ?_, hzero, hcopied, fun k hk h₁ h₂ ↦ ?_, hover, fun h₀ ↦ ?_⟩
      · rw [hsteps]
        omega
      · have := hs.sound.inside b hb
        exact (he.below _ (by omega)).trans (congrFun setup_mem _)
      · obtain rfl := Option.some.inj (hn.symm.trans hk)
        exact absurd ⟨h₁, h₂⟩ hroom
      · omega
  | none =>
    by_cases hc : ∀ a x, c ≠ .store a x
    · have hsame := perform_none (s := s) hn hc
      refine ⟨?_, fun b _ i _ _ ↦ ?_, hzero, hcopied, fun k hk ↦ ?_, hover,
        fun _ _ ↦ .inl (by rw [hsame])⟩
      · show s.heap.cur ≤ (c.perform s.heap).1.cur
        rw [hsame]
      · rw [hsame]
      · cases hn.symm.trans hk
    · push Not at hc
      obtain ⟨a, x, rfl⟩ := hc
      refine ⟨Nat.le_refl _, fun b _ i _ hne ↦ ?_, hzero, hcopied, fun k hk ↦ (by cases hk),
        hover, fun _ hno ↦ absurd rfl (hno a x)⟩
      have := hne a x rfl
      exact put_outside (by rw [List.length_singleton]; omega)

theorem Inv.run (hs : s.Inv brk) {l : List HeapCall}
    (hl : Along (fun s c ↦ s.Allowed c ∧ s.Fits c) s l) : (s.run l).Inv brk := by
  induction l generalizing s with
  | nil => exact hs
  | cons c l ih => exact ih (hs.step hl.1.1 hl.1.2) hl.2

/-- The heap in every run whose sums do not wrap. -/
theorem heap_sound (brk : UInt64) (mem : ℕ → UInt8) (l : List HeapCall)
    (hl : Along (fun s c ↦ s.Allowed c ∧ s.Fits c) (start brk mem) l) :
    ((start brk mem).run l).Sound brk ∧
      ∀ c, ((start brk mem).run l).Allowed c → ((start brk mem).run l).Fits c →
        ((start brk mem).run l).Serves c := by
  have hinv := (inv_start brk mem).run hl
  exact ⟨hinv.sound, fun c ha hfits ↦ hinv.serves ha hfits⟩

/-- A block of a hundred bytes from a heap that starts at 4 MiB, and an array of three words behind
it. -/
def hundred : List HeapCall :=
  [.malloc 0x401000 100, .store 0x400008 42, .calloc 0 3 8, .free 0x400078]

/-- The block grows to two hundred bytes. -/
theorem heap_sound_hundred : ((start 0x400000 fun _ ↦ 7).run hundred).Sound 0x400000 ∧
    ((start 0x400000 fun _ ↦ 7).run hundred).Serves (.realloc 0 0x400008 200) := by
  have hl : Along (fun s c ↦ s.Allowed c ∧ s.Fits c) (start 0x400000 fun _ ↦ 7) hundred := by
    unfold Fits
    refine ⟨⟨trivial, ?_⟩, ⟨⟨0x400008, 100, ?_⟩, ?_⟩, ⟨trivial, ?_⟩, ⟨trivial, ?_⟩, trivial⟩
      <;> decide +kernel
  have hsound := heap_sound 0x400000 (fun _ ↦ 7) hundred hl
  refine ⟨hsound.1, hsound.2 _ (.inr ⟨100, by decide +kernel⟩) ?_⟩
  unfold Fits
  decide +kernel

/-- A request for all but one byte of the address space gets sixteen bytes. -/
theorem not_heap_sound : ¬ ∀ (brk : UInt64) (mem : ℕ → UInt8) (l : List HeapCall),
    Along Allowed (start brk mem) l → ((start brk mem).run l).Sound brk := by
  intro h
  have hs := h 0x400000 (fun _ ↦ 7) [.malloc 0x401000 0xffffffffffffffff] ⟨trivial, trivial⟩
  have hblocks : ((start 0x400000 fun _ ↦ 7).run [.malloc 0x401000 0xffffffffffffffff]).blocks =
      [(0x400008, 0xffffffffffffffff)] := by decide +kernel
  have hcur : ((start 0x400000 fun _ ↦ 7).run [.malloc 0x401000 0xffffffffffffffff]).heap.cur =
      0x400010 := by decide +kernel
  have hin := hs.inside (0x400008, 0xffffffffffffffff)
    (by rw [hblocks]; exact List.mem_singleton_self _)
  rw [hcur] at hin
  exact absurd hin.2.2 (by decide)

end HeapRun

end YabroOS.Libc
