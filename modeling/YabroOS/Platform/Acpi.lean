import YabroOS.Lib.Checked
import Mathlib.Tactic.IntervalCases

namespace YabroOS.Platform

open Lib

variable {α β : Type}

/-- The bytes of physical memory that may be read, and the addresses that `acpi_phys` gives a
pointer to. -/
structure AcpiMemory where
  read : ℕ → Option UInt8
  phys : ℕ → Bool

def scan (f : ℕ → Option (Option α)) : List ℕ → Option (Option α)
  | [] => some none
  | i :: l => (f i).bind fun
    | some a => some (some a)
    | none => scan f l

namespace AcpiMemory

variable (m : AcpiMemory)

def acpiChecksum (p len : ℕ) : Option UInt8 :=
  (List.range len).foldlM (fun sum i ↦ (m.read (p + i)).map (sum + ·)) 0

def acpiU32 (p : ℕ) : Option ℕ :=
  (m.read p).bind fun b₀ ↦ (m.read (p + 1)).bind fun b₁ ↦ (m.read (p + 2)).bind fun b₂ ↦
    (m.read (p + 3)).bind fun b₃ ↦
    some (b₀.toNat + b₁.toNat * 2 ^ 8 + b₂.toNat * 2 ^ 16 + b₃.toNat * 2 ^ 24)

def acpiU64 (p : ℕ) : Option ℕ :=
  (m.acpiU32 p).bind fun low ↦ (m.acpiU32 (p + 4)).bind fun high ↦ some (low + high * 2 ^ 32)

def signed (p : ℕ) : List UInt8 → Option Bool
  | [] => some true
  | c :: sig => (m.read p).bind fun b ↦ if b = c then signed (p + 1) sig else some false

def acpiSdtOk (p : ℕ) (sig : List UInt8) : Option (Option ℕ) :=
  if m.phys p = false then some none
  else (m.signed p sig).bind fun same ↦
    if same = false then some none
    else (m.acpiU32 (p + 4)).bind fun len ↦
      if len < 36 ∨ 16 * 1024 * 1024 < len then some none
      else (m.acpiChecksum p len).bind fun sum ↦ if sum ≠ 0 then some none else some (some len)

def rsdPtr : List UInt8 := [82, 83, 68, 32, 80, 84, 82, 32]
def xsdt : List UInt8 := [88, 83, 68, 84]
def rsdt : List UInt8 := [82, 83, 68, 84]
def facp : List UInt8 := [70, 65, 67, 80]

def ebdaRsdp (p : ℕ) : Option (Option ℕ) :=
  if m.phys p = false then some none
  else (m.signed p rsdPtr).bind fun same ↦
    if same = false then some none
    else (m.acpiChecksum p 20).bind fun sum ↦ if sum = 0 then some (some p) else some none

def biosRsdp (p : ℕ) : Option (Option ℕ) :=
  if m.phys p = false then some none
  else (m.signed p rsdPtr).bind fun same ↦
    if same = false then some none
    else (m.acpiChecksum p 20).bind fun sum ↦
      if sum ≠ 0 then some none
      else (m.read (p + 15)).bind fun revision ↦
        if revision < 2 then some (some p)
        else (m.acpiU32 (p + 20)).bind fun len ↦
          if len < 36 ∨ 4096 < len then some none
          else (m.acpiChecksum p len).bind fun sum ↦ if sum ≠ 0 then some none else some (some p)

def acpiFindRsdp : Option (Option ℕ) :=
  (if m.phys 0x40E = false then some none
   else (m.read 0x40E).bind fun low ↦ (m.read 0x40F).bind fun high ↦
      let ebda := (low.toNat + high.toNat * 2 ^ 8) * 16
      if 0x400 ≤ ebda ∧ ebda < 0xA0000 then
        scan (fun k ↦ m.ebdaRsdp (ebda + k * 16)) (List.range 63) else some none).bind fun
  | some p => some (some p)
  | none => scan (fun k ↦ m.biosRsdp (0xE0000 + k * 16)) (List.range 8191)

def acpiFindFadt : Option (Option ℕ) :=
  m.acpiFindRsdp.bind fun
  | none => some none
  | some r =>
    if m.phys r = false then some none
    else (m.read (r + 15)).bind fun revision ↦
      (if 2 ≤ revision then m.acpiU64 (r + 24) else m.acpiU32 (r + 16)).bind fun root ↦
        if root = 0 then some none
        else (m.acpiSdtOk root (if 2 ≤ revision then xsdt else rsdt)).bind fun
          | none => some none
          | some len =>
            scan (fun i ↦ (if 2 ≤ revision then m.acpiU64 (root + 36 + i * 8)
              else m.acpiU32 (root + 36 + i * 4)).bind fun p ↦
              if p = 0 then some none else (m.acpiSdtOk p facp).map fun ok ↦ ok.map fun _ ↦ p)
              (List.range ((len - 36) / if 2 ≤ revision then 8 else 4))

def acpiAmlInteger (p left : ℕ) : Option (Option (ℕ × ℕ)) :=
  if left = 0 then some none
  else (m.read p).bind fun
    | 0x00 => some (some (0, 1))
    | 0x01 => some (some (1, 1))
    | 0x0A => if left < 2 then some none else (m.read (p + 1)).map fun b ↦ some (b.toNat, 2)
    | 0x0B =>
      if left < 3 then some none
      else (m.read (p + 1)).bind fun b₀ ↦ (m.read (p + 2)).map fun b₁ ↦
        some (b₀.toNat + b₁.toNat * 2 ^ 8, 3)
    | 0x0C => if left < 5 then some none else (m.acpiU32 (p + 1)).map fun v ↦ some (v, 5)
    | 0x0E => if left < 9 then some none else (m.acpiU64 (p + 1)).map fun v ↦ some (v, 9)
    | _ => some none

def s5Elements (d len p : ℕ) : Option (Option (ℕ × ℕ)) :=
  if len ≤ p then some none
  else (m.read (d + p)).bind fun elements ↦
    if elements < 2 then some none
    else (m.acpiAmlInteger (d + (p + 1)) (len - (p + 1))).bind fun
      | none => some none
      | some (a, used) => (m.acpiAmlInteger (d + (p + 1 + used)) (len - (p + 1 + used))).map fun
        | none => none
        | some (b, _) => some (a % 2 ^ 16, b % 2 ^ 16)

def s5At (d len i : ℕ) : Option (Option (ℕ × ℕ)) :=
  (m.signed (d + i) [95, 83, 53, 95]).bind fun same ↦
    if same = false ∨ len ≤ i + 4 then some none
    else (m.read (d + (i + 4))).bind fun op ↦
      if op ≠ 0x12 ∨ len ≤ i + 5 then some none
      else (m.read (d + (i + 5))).bind fun lead ↦
        let follow := lead.toNat / 64
        if len < i + 5 + 1 + follow then some none
        else ((List.range follow).foldlM
          (fun pkgLen n ↦ (m.read (d + (i + 5 + 1 + n))).map fun b ↦ pkgLen ||| b.toNat <<<
            (4 + 8 * n)) (lead.toNat % 16)).bind
            fun _ ↦ m.s5Elements d len (i + 5 + (1 + follow))

/-- `acpi_get_s5`, for a length that passes `acpi_sdt_ok`; no result stands for its 0. -/
def acpiGetS5 (d len : ℕ) : Option (Option (ℕ × ℕ)) :=
  if m.phys d = false ∨ len < 40 then some none
  else scan (m.s5At d len) (List.range' 36 (len - 8 - 36))

end AcpiMemory

abbrev Content := ℕ → UInt8

namespace Content

variable (c : Content)

def word (p : ℕ) : ℕ := (c p).toNat + (c (p + 1)).toNat * 2 ^ 8
def dword (p : ℕ) : ℕ := c.word p + (c (p + 2)).toNat * 2 ^ 16 + (c (p + 3)).toNat * 2 ^ 24
def qword (p : ℕ) : ℕ := c.dword p + c.dword (p + 4) * 2 ^ 32

def Signed (p : ℕ) (sig : List UInt8) : Prop := ∀ i (h : i < sig.length), c (p + i) = sig[i]

def checksum (p len : ℕ) : UInt8 := (List.range len).foldl (fun sum i ↦ sum + c (p + i)) 0

/-- The length fields and the checksum of a table pass `acpi_sdt_ok`. -/
structure Passes (p : ℕ) : Prop where
  length_ge : 36 ≤ c.dword (p + 4)
  length_le : c.dword (p + 4) ≤ 16 * 1024 * 1024
  checksum : c.checksum p (c.dword (p + 4)) = 0

def ebda : ℕ := c.word 0x40E * 16

/-- The areas that are searched for the root pointer. -/
inductive Searched : ℕ → Prop
  | bda (a : ℕ) (h : a = 0x40E ∨ a = 0x40F) : Searched a
  | ebda (a : ℕ) (h₁ : c.ebda ≤ a) (h₂ : a < c.ebda + 1024) : Searched a
  | bios (a : ℕ) (h₁ : 0xE0000 ≤ a) (h₂ : a < 0x100000) : Searched a

/-- A root pointer, where it is searched for. -/
structure Rsdp (p : ℕ) : Prop where
  place : (∃ k < 63, p = c.ebda + k * 16) ∨ ∃ k < 8191, p = 0xE0000 + k * 16
  signed : c.Signed p AcpiMemory.rsdPtr
  checksum : c.checksum p 20 = 0

def rsdpLength (p : ℕ) : ℕ := if c (p + 15) < 2 then 20 else c.dword (p + 20)

def root (r : ℕ) : ℕ := if 2 ≤ c (r + 15) then c.qword (r + 24) else c.dword (r + 16)

def entry (r i : ℕ) : ℕ :=
  if 2 ≤ c (r + 15) then c.qword (c.root r + 36 + i * 8) else c.dword (c.root r + 36 + i * 4)

def entries (r : ℕ) : ℕ := (c.dword (c.root r + 4) - 36) / if 2 ≤ c (r + 15) then 8 else 4

/-- The tables that are described: that of a root pointer, and its entries. -/
inductive Table : ℕ → Prop
  | root (r : ℕ) (h : c.Rsdp r) (h₀ : c.root r ≠ 0) : Table (c.root r)
  | entry (r i : ℕ) (h : c.Rsdp r) (hi : i < c.entries r) (h₀ : c.entry r i ≠ 0) : Table
    (c.entry r i)

/-- The bytes of the searched areas, and those inside the declared lengths. -/
inductive Declared : ℕ → Prop
  | searched (a : ℕ) (h : c.Searched a) : Declared a
  | rsdp (p a : ℕ) (h : c.Rsdp p) (h₁ : p ≤ a) (h₂ : a < p + c.rsdpLength p) : Declared a
  | table (p a : ℕ) (h : c.Table p) (h₁ : p ≤ a) (h₂ : a < p + c.dword (p + 4)) : Declared a

/-- An integer of the machine language at `p`, with its value and the number of its bytes. -/
inductive AmlInteger (p : ℕ) : ℕ → ℕ → Prop
  | zero (h : c p = 0x00) : AmlInteger p 0 1
  | one (h : c p = 0x01) : AmlInteger p 1 1
  | byte (h : c p = 0x0A) : AmlInteger p (c (p + 1)).toNat 2
  | word (h : c p = 0x0B) : AmlInteger p (c.word (p + 1)) 3
  | dword (h : c p = 0x0C) : AmlInteger p (c.dword (p + 1)) 5
  | qword (h : c p = 0x0E) : AmlInteger p (c.qword (p + 1)) 9

/-- The first two elements of a package `_S5_` inside the table at `d`; its number of elements is at
`p`. -/
def S5Package (d len x y : ℕ) : Prop :=
  ∃ i p u v, 36 ≤ i ∧ c.Signed (d + i) [95, 83, 53, 95] ∧ c (d + (i + 4)) = 0x12 ∧
    p = i + 5 + (1 + (c (d + (i + 5))).toNat / 64) ∧ 2 ≤ c (d + p) ∧
    c.AmlInteger (d + (p + 1)) x u ∧ c.AmlInteger (d + (p + 1 + u)) y v ∧ p + 1 + u + v ≤ len

end Content

variable {m : AcpiMemory} {c : Content} {p len lo hi i r : ℕ} {sig : List UInt8}

def Covers (m : AcpiMemory) (c : Content) (lo hi : ℕ) : Prop :=
  ∀ a, lo ≤ a → a < hi → m.read a = some (c a)

theorem Covers.mono (h : Covers m c lo hi) {lo' hi' : ℕ} (h₁ : lo ≤ lo') (h₂ : hi' ≤ hi) :
    Covers m c lo' hi' :=
  fun a ha ha' ↦ h a (h₁.trans ha) (ha'.trans_le h₂)

theorem scan_yields {f : ℕ → Option (Option α)} {P : α → Prop} {l : List ℕ}
    (h : ∀ i ∈ l, Yields (f i) fun r ↦ ∀ a, r = some a → P a) :
    Yields (scan f l) fun r ↦ ∀ a, r = some a → P a := by
  induction l with
  | nil => exact .ret nofun
  | cons i l ih =>
    refine (h i (.head _)).bind fun r hr ↦ ?_
    cases r with
    | none => exact ih fun j hj ↦ h j (.tail _ hj)
    | some a => exact .ret hr

namespace AcpiMemory

theorem acpiU32_eq (h : Covers m c p (p + 4)) : m.acpiU32 p = some (c.dword p) := by
  simp only [acpiU32, h p (by omega) (by omega), h (p + 1) (by omega) (by omega),
    h (p + 2) (by omega) (by omega),
    h (p + 3) (by omega) (by omega), Option.bind_some, Content.dword, Content.word]

theorem acpiU64_eq (h : Covers m c p (p + 8)) : m.acpiU64 p = some (c.qword p) := by
  simp only [acpiU64, acpiU32_eq (h.mono (Nat.le_refl p) (by omega)),
    acpiU32_eq (p := p + 4) (h.mono (by omega) (by omega)),
    Option.bind_some, Content.qword]

theorem acpiChecksum_eq (h : Covers m c p (p + len)) :
    m.acpiChecksum p len = some (c.checksum p len) := by
  induction len with
  | zero => rfl
  | succ n ih =>
    have hn := ih (h.mono (Nat.le_refl p) (by omega))
    simp only [acpiChecksum, Content.checksum] at hn ⊢
    rw [List.range_succ, List.foldlM_append, hn, List.foldl_append]
    simp [h (p + n) (by omega) (by omega)]

theorem signed_yields (h : Covers m c p (p + sig.length)) :
    Yields (m.signed p sig) fun b ↦ b = true → c.Signed p sig := by
  induction sig generalizing p with
  | nil => exact .ret fun _ i hi ↦ nomatch hi
  | cons x sig ih =>
    rw [List.length_cons] at h
    rw [signed, h p (by omega) (by omega), Option.bind_some]
    split_ifs with hx
    · refine (ih (h.mono (by omega) (by omega))).mono fun b hb htrue i hi ↦ ?_
      cases i with
      | zero => exact hx
      | succ i =>
        have hnext := hb htrue i (Nat.lt_of_succ_lt_succ hi)
        rwa [Nat.add_assoc, Nat.add_comm 1 i] at hnext
    · exact .ret nofun

theorem acpiSdtOk_yields (hc : c.Passes p) (h : Covers m c p (p + c.dword (p + 4)))
    (hsig : sig.length = 4) :
    Yields (m.acpiSdtOk p sig) fun r ↦ ∀ len, r = some len → len = c.dword (p + 4) := by
  have hlen := hc.length_ge
  unfold acpiSdtOk
  split_ifs
  · exact .ret nofun
  · refine (signed_yields (h.mono (Nat.le_refl p) (by omega))).bind fun same _ ↦ ?_
    rw [acpiU32_eq (h.mono (by omega) (by omega)), Option.bind_some, acpiChecksum_eq h,
      Option.bind_some]
    split_ifs
    · exact .ret nofun
    · exact .ret nofun
    · exact .ret nofun
    · exact .ret fun len hl ↦ (Option.some.inj hl).symm

theorem entry_eq (h : Covers m c (c.root r) (c.root r + c.dword (c.root r + 4)))
    (hc : c.Passes (c.root r)) (hi : i ∈ List.range (c.entries r)) :
    (if 2 ≤ c (r + 15) then m.acpiU64 (c.root r + 36 + i * 8) else m.acpiU32
      (c.root r + 36 + i * 4)) = some (c.entry r i) := by
  have hlen := hc.length_ge
  rw [List.mem_range, Content.entries] at hi
  unfold Content.entry
  split_ifs with hrev
  · rw [if_pos hrev] at hi
    exact acpiU64_eq (h.mono (by omega) (by omega))
  · rw [if_neg hrev] at hi
    exact acpiU32_eq (h.mono (by omega) (by omega))

section Find

variable (hread : ∀ a, c.Declared a → m.read a = some (c a))

include hread

theorem covers_searched (h : ∀ a, lo ≤ a → a < hi → c.Searched a) : Covers m c lo hi :=
  fun a h₁ h₂ ↦ hread a (.searched a (h a h₁ h₂))

theorem ebdaRsdp_yields (hi : i < 63) :
    Yields (m.ebdaRsdp (c.ebda + i * 16)) fun r ↦ ∀ p, r = some p → c.Rsdp p := by
  have hcovers : Covers m c (c.ebda + i * 16) (c.ebda + i * 16 + 20) :=
    covers_searched hread fun a h₁ h₂ ↦ .ebda a (by omega) (by omega)
  unfold ebdaRsdp
  split_ifs
  · exact .ret nofun
  · refine (@signed_yields _ _ _ rsdPtr (hcovers.mono (Nat.le_refl _) (by simp [rsdPtr]))).bind
      fun same hs ↦ ?_
    rw [acpiChecksum_eq hcovers, Option.bind_some]
    split_ifs with hsame hsum
    · exact .ret nofun
    · refine .ret fun p hp ↦ ?_
      obtain rfl := Option.some.inj hp
      exact ⟨.inl ⟨i, hi, rfl⟩, hs (by simpa using hsame), hsum⟩
    · exact .ret nofun

theorem biosRsdp_yields (hi : i < 8191) :
    Yields (m.biosRsdp (0xE0000 + i * 16)) fun r ↦ ∀ p, r = some p → c.Rsdp p := by
  have hcovers : Covers m c (0xE0000 + i * 16) (0xE0000 + i * 16 + 24) :=
    covers_searched hread fun a h₁ h₂ ↦ .bios a (by omega) (by omega)
  unfold biosRsdp
  generalize hp : 0xE0000 + i * 16 = p at hcovers
  split_ifs
  · exact .ret nofun
  · refine (@signed_yields _ _ _ rsdPtr (hcovers.mono (Nat.le_refl _) (by simp [rsdPtr]))).bind
      fun same hs ↦ ?_
    rw [acpiChecksum_eq (hcovers.mono (Nat.le_refl _) (by omega)),
      Option.bind_some, hcovers (p + 15) (by omega) (by omega),
      Option.bind_some, acpiU32_eq (hcovers.mono (by omega) (by omega)), Option.bind_some]
    split_ifs with hsame hsum hrev hlen
    · exact .ret nofun
    · exact .ret nofun
    · refine .ret fun q hq ↦ ?_
      obtain rfl := Option.some.inj hq
      exact ⟨.inr ⟨i, hi, hp.symm⟩, hs (by simpa using hsame), not_not.1 hsum⟩
    · exact .ret nofun
    · have hrsdp : c.Rsdp p := ⟨.inr ⟨i, hi, hp.symm⟩, hs (by simpa using hsame), not_not.1 hsum⟩
      have hall : Covers m c p (p + c.dword (p + 20)) := fun a h₁ h₂ ↦
        hread a (.rsdp p a hrsdp h₁ (by rwa [Content.rsdpLength, if_neg hrev]))
      rw [acpiChecksum_eq hall, Option.bind_some]
      split_ifs
      · exact .ret nofun
      · refine .ret fun q hq ↦ ?_
        obtain rfl := Option.some.inj hq
        exact hrsdp

theorem acpiFindRsdp_yields : Yields m.acpiFindRsdp fun r ↦ ∀ p, r = some p → c.Rsdp p := by
  have hbios : Yields (scan (fun k ↦ m.biosRsdp (0xE0000 + k * 16)) (List.range 8191)) fun r ↦
      ∀ p, r = some p → c.Rsdp p :=
    scan_yields fun i hi ↦ biosRsdp_yields hread (List.mem_range.1 hi)
  have hlow : m.read 0x40E = some (c 0x40E) := hread _ (.searched _ (.bda _ (.inl rfl)))
  have hhigh : m.read 0x40F = some (c 0x40F) := hread _ (.searched _ (.bda _ (.inr rfl)))
  refine Yields.bind (P := fun r ↦ ∀ p, r = some p → c.Rsdp p) ?_ fun r hr ↦ ?_
  · split_ifs
    · exact .ret nofun
    · rw [hlow, Option.bind_some, hhigh, Option.bind_some]
      dsimp only
      split_ifs
      · exact scan_yields fun i hi ↦ ebdaRsdp_yields hread (List.mem_range.1 hi)
      · exact .ret nofun
  · cases r with
    | none => exact hbios
    | some p => exact .ret hr

theorem rsdp_covers (h : c.Rsdp r) : Covers m c r (r + 32) := by
  rcases h.place with ⟨k, hk, rfl⟩ | ⟨k, hk, rfl⟩
  · exact covers_searched hread fun a h₁ h₂ ↦ .ebda a (by omega) (by omega)
  · exact covers_searched hread fun a h₁ h₂ ↦ .bios a (by omega) (by omega)

theorem acpiFindFadt_yields (hc : ∀ p, c.Table p → c.Passes p) :
    Yields m.acpiFindFadt fun r ↦ ∀ p, r = some p → c.Table p := by
  refine (acpiFindRsdp_yields hread).bind fun r hr ↦ ?_
  cases r with
  | none => exact .ret nofun
  | some r =>
    have hrsdp := hr r rfl
    have hcovers := rsdp_covers hread hrsdp
    have htable : ∀ q, c.Table q → Covers m c q (q + c.dword (q + 4)) :=
      fun q hq a h₁ h₂ ↦ hread a (.table q a hq h₁ h₂)
    have hroot : (if 2 ≤ c (r + 15) then m.acpiU64 (r + 24) else m.acpiU32 (r + 16)) =
        some (c.root r) := by
      unfold Content.root
      split_ifs
      · exact acpiU64_eq (hcovers.mono (by omega) (by omega))
      · exact acpiU32_eq (hcovers.mono (by omega) (by omega))
    dsimp only
    rw [hcovers (r + 15) (by omega) (by omega), Option.bind_some, hroot, Option.bind_some]
    by_cases hphys : m.phys r = false
    · rw [if_pos hphys]
      exact .ret nofun
    by_cases hzero : c.root r = 0
    · rw [if_neg hphys, if_pos hzero]
      exact .ret nofun
    · rw [if_neg hphys, if_neg hzero]
      have hpasses := hc _ (.root r hrsdp hzero)
      refine (acpiSdtOk_yields hpasses (htable _ (.root r hrsdp hzero)) (by split_ifs <;> rfl)).bind
        fun ok hok ↦ ?_
      cases ok with
      | none => exact .ret nofun
      | some len =>
        obtain rfl := hok len rfl
        refine scan_yields fun i hi ↦ ?_
        have hroom : Covers m c (c.root r) (c.root r + c.dword (c.root r + 4)) :=
          htable _ (.root r hrsdp hzero)
        have hentry := entry_eq hroom hpasses hi
        rw [hentry, Option.bind_some]
        split_ifs with hnull
        · exact .ret nofun
        · have htab : c.Table (c.entry r i) := .entry r i hrsdp (List.mem_range.1 hi) hnull
          obtain ⟨ok, hok, -⟩ := @acpiSdtOk_yields _ _ _ facp (hc _ htab) (htable _ htab) rfl
          rw [hok]
          refine .ret fun q hq ↦ ?_
          cases ok with
          | none => cases hq
          | some _ =>
            obtain rfl := Option.some.inj hq
            exact htab

end Find

theorem acpiAmlInteger_yields {left : ℕ} (h : Covers m c p (p + left)) :
    Yields (m.acpiAmlInteger p left) fun r ↦ ∀ v used, r = some (v, used) → c.AmlInteger p v used ∧
      used ≤ left := by
  have hret : ∀ {v used}, c.AmlInteger p v used → used ≤ left →
      Yields (some (some (v, used))) fun r ↦ ∀ v used, r = some (v, used) → c.AmlInteger p v used ∧
        used ≤ left := by
    intro v used hv hused
    refine .ret fun v' used' he ↦ ?_
    obtain ⟨rfl, rfl⟩ := Prod.mk.inj (Option.some.inj he)
    exact ⟨hv, hused⟩
  by_cases hleft : left = 0
  · rw [acpiAmlInteger, if_pos hleft]
    exact .ret nofun
  · rw [acpiAmlInteger, if_neg hleft, h p (by omega) (by omega), Option.bind_some]
    split
    · next hop => exact hret (.zero hop) (by omega)
    · next hop => exact hret (.one hop) (by omega)
    · next hop =>
      split_ifs with hshort
      · exact .ret nofun
      · rw [h (p + 1) (by omega) (by omega), Option.map_some]
        exact hret (.byte hop) (by omega)
    · next hop =>
      split_ifs with hshort
      · exact .ret nofun
      · rw [h (p + 1) (by omega) (by omega), Option.bind_some, h (p + 2) (by omega) (by omega),
          Option.map_some]
        exact hret (.word hop) (by omega)
    · next hop =>
      split_ifs with hshort
      · exact .ret nofun
      · rw [acpiU32_eq (h.mono (by omega) (by omega)), Option.map_some]
        exact hret (.dword hop) (by omega)
    · next hop =>
      split_ifs with hshort
      · exact .ret nofun
      · rw [acpiU64_eq (h.mono (by omega) (by omega)), Option.map_some]
        exact hret (.qword hop) (by omega)
    · exact .ret nofun

section Package

variable {d : ℕ} (h : Covers m c d (d + len))

include h

theorem s5Elements_yields (p : ℕ) : Yields (m.s5Elements d len p) fun r ↦ ∀ a b, r = some (a, b) →
    ∃ x y u v, 2 ≤ c (d + p) ∧ c.AmlInteger (d + (p + 1)) x u ∧ c.AmlInteger (d + (p + 1 + u)) y v ∧
      p + 1 + u + v ≤ len ∧ a = x % 2 ^ 16 ∧ b = y % 2 ^ 16 := by
  unfold s5Elements
  split_ifs with hp
  · exact .ret nofun
  · rw [h (d + p) (by omega) (by omega), Option.bind_some]
    split_ifs with htwo
    · exact .ret nofun
    · refine (acpiAmlInteger_yields (h.mono (by omega) (by omega))).bind fun first hfirst ↦ ?_
      cases first with
      | none => exact .ret nofun
      | some first =>
        obtain ⟨x, u⟩ := first
        obtain ⟨hx, hu⟩ := hfirst x u rfl
        obtain ⟨second, hsecond, hsome⟩ :=
          @acpiAmlInteger_yields _ _ (d + (p + 1 + u)) (len - (p + 1 + u))
            (h.mono (by omega) (by omega))
        dsimp only
        rw [hsecond, Option.map_some]
        refine .ret fun a b hab ↦ ?_
        cases second with
        | none => cases hab
        | some second =>
          obtain ⟨y, v⟩ := second
          obtain ⟨hy, hv⟩ := hsome y v rfl
          obtain ⟨rfl, rfl⟩ := Prod.mk.inj (Option.some.inj hab)
          exact ⟨x, y, u, v, UInt8.not_lt.1 htwo, hx, hy, by omega, rfl, rfl⟩

theorem s5At_yields (hi : 36 ≤ i) (hlen : i + 8 < len) :
    Yields (m.s5At d len i) fun r ↦ ∀ ab, r = some ab →
    ∃ x y, c.S5Package d len x y ∧ ab = (x % 2 ^ 16, y % 2 ^ 16) := by
  unfold s5At
  refine (signed_yields
    (h.mono (by omega) (by simp only [List.length_cons, List.length_nil]; omega))).bind
      fun same hs ↦ ?_
  split_ifs with hsame
  · exact .ret nofun
  · rw [h (d + (i + 4)) (by omega) (by omega), Option.bind_some]
    split_ifs with hop
    · exact .ret nofun
    · rw [h (d + (i + 5)) (by omega) (by omega), Option.bind_some]
      dsimp only
      split_ifs with hfollow
      · exact .ret nofun
      · push Not at hsame hop
        have hread : ∀ n ∈ List.range ((c (d + (i + 5))).toNat / 64), ∀ pkgLen : ℕ, True →
            Yields ((m.read (d + (i + 5 + 1 + n))).map fun b ↦ pkgLen ||| b.toNat <<< (4 + 8 * n))
              fun _ ↦ True := by
          intro n hn pkgLen _
          have hn := List.mem_range.1 hn
          rw [h (d + (i + 5 + 1 + n)) (by omega) (by omega), Option.map_some]
          exact .ret trivial
        refine (Yields.foldlM hread trivial).bind fun _ _ ↦
          (s5Elements_yields h _).mono fun r hr ab hab ↦ ?_
        obtain ⟨a, b⟩ := ab
        obtain ⟨x, y, u, v, htwo, hx, hy, hle, rfl, rfl⟩ := hr a b hab
        exact ⟨x, y, ⟨i, _, u, v, hi, hs (by simpa using hsame.1), hop.1, rfl, htwo, hx, hy, hle⟩,
          rfl⟩

theorem acpiGetS5_yields : Yields (m.acpiGetS5 d len) fun r ↦ ∀ ab, r = some ab →
    ∃ x y, c.S5Package d len x y ∧ ab = (x % 2 ^ 16, y % 2 ^ 16) := by
  unfold acpiGetS5
  split_ifs with hshort
  · exact .ret nofun
  · refine scan_yields fun i hi ↦ ?_
    obtain ⟨h₁, h₂⟩ := List.mem_range'_1.1 hi
    exact s5At_yields h h₁ (by omega)

end Package

/-- Every content of the tables whose lengths and checksums pass: where the bytes of the searched
areas and those inside the declared lengths may be read, both searches end without another read, and
what they return is in the tables. -/
theorem acpi_in_tables (m : AcpiMemory) (c : Content) :
    ((∀ a, c.Declared a → m.read a = some (c a)) → (∀ p, c.Table p → c.Passes p) →
      Yields m.acpiFindFadt fun r ↦ ∀ p, r = some p → c.Table p) ∧
    ∀ d len, (∀ a, d ≤ a → a < d + len → m.read a = some (c a)) →
      Yields (m.acpiGetS5 d len) fun r ↦ ∀ ab, r = some ab →
        ∃ x y, c.S5Package d len x y ∧ ab = (x % 2 ^ 16, y % 2 ^ 16) :=
  ⟨fun hread hc ↦ acpiFindFadt_yields hread hc, fun _ _ h ↦ acpiGetS5_yields h⟩

def rsdpBytes : List UInt8 :=
  rsdPtr ++ [15, 89, 65, 66, 82, 79, 83, 2, 0, 0, 0, 0, 36, 0, 0, 0, 0, 0, 32, 0, 0, 0, 0, 0, 188,
    0, 0, 0]

def xsdtBytes : List UInt8 :=
  xsdt ++ [52, 0, 0, 0, 1, 136] ++ List.replicate 26 0 ++
    [128, 0, 32, 0, 0, 0, 0, 0, 64, 0, 32, 0, 0, 0, 0, 0]

def facpBytes : List UInt8 :=
  facp ++ [44, 0, 0, 0, 1, 217] ++ List.replicate 26 0 ++ [0, 0, 0, 0, 192, 0, 32, 0]

def apicBytes : List UInt8 := [65, 80, 73, 67, 36, 0, 0, 0, 1, 190] ++ List.replicate 26 0

def wideTable : List UInt8 :=
  [68, 83, 68, 84, 52, 0, 0, 0, 0, 22] ++ List.replicate 26 0 ++
    [95, 83, 53, 95, 18, 10, 2, 12, 5, 0, 1, 0, 10, 7, 0, 0]

def wideTables : List UInt8 :=
  xsdtBytes ++ List.replicate 12 0 ++ facpBytes ++ List.replicate 20 0 ++ apicBytes ++
    List.replicate 28 0 ++ wideTable

/-- A memory with the extended BIOS data area at 0x9FC00 and a root pointer in the area of the BIOS.
-/
def wideContent : Content := fun a ↦
  if a = 0x40E then 0xC0
  else if a = 0x40F then 0x9F
  else if a < 0xE0010 then 0
  else if a < 0x200000 then rsdpBytes.getD (a - 0xE0010) 0
  else wideTables.getD (a - 0x200000) 0

/-- The memory where the bytes from `lo` to `hi` cannot be read. -/
def without (c : Content) (lo hi : ℕ) : AcpiMemory :=
  ⟨fun a ↦ if lo ≤ a ∧ a < hi then none else some (c a), fun _ ↦ true⟩

theorem wideContent_rsdp (h : wideContent.Rsdp r) : r = 0xE0010 := by
  have hfirst : wideContent r = 82 := h.signed 0 (by decide)
  have hebda : wideContent.ebda = 0x9FC00 := by decide
  have hzero : ∀ a, 0x410 ≤ a → a < 0xE0010 → wideContent a = 0 := by
    intro a h₁ h₂
    rw [wideContent, if_neg (by omega), if_neg (by omega), if_pos h₂]
  rcases h.place with ⟨k, hk, rfl⟩ | ⟨k, hk, rfl⟩
  · rw [hzero _ (by omega) (by omega)] at hfirst
    cases hfirst
  · by_cases hk₀ : k = 0
    · rw [hk₀, hzero _ (by omega) (by omega)] at hfirst
      cases hfirst
    · have hbyte : rsdpBytes.getD ((k - 1) * 16) 0 = 82 := by
        rw [wideContent, if_neg (by omega), if_neg (by omega), if_neg (by omega), if_pos (by omega)]
          at hfirst
        rwa [show (k - 1) * 16 = 0xE0000 + k * 16 - 0xE0010 by omega]
      have hlast : ∀ j < 3, rsdpBytes.getD (j * 16) 0 = 82 → j = 0 := by decide
      by_cases hlt : k - 1 < 3
      · have := hlast _ hlt hbyte
        omega
      · have hlen : rsdpBytes.length = 36 := rfl
        rw [List.getD_eq_getElem?_getD, List.getElem?_eq_none (by omega)] at hbyte
        cases hbyte

theorem wideContent_table (h : wideContent.Table p) :
    p = 0x200000 ∨ p = 0x200040 ∨ p = 0x200080 := by
  cases h with
  | root r h =>
    obtain rfl := wideContent_rsdp h
    exact .inl (by decide)
  | entry r i h hi =>
    obtain rfl := wideContent_rsdp h
    have hi : i < 2 := hi
    interval_cases i
    · exact .inr (.inr (by decide))
    · exact .inr (.inl (by decide))

theorem wideContent_passes (h : wideContent.Table p) : wideContent.Passes p := by
  rcases wideContent_table h with rfl | rfl | rfl <;>
    exact ⟨by decide, by decide, by decide +kernel⟩

theorem acpi_in_tables_wide :
    (∃ p, (without wideContent 0 0).acpiFindFadt = some (some p) ∧ wideContent.Table p ∧
      p = 0x200040) ∧
      ∃ x y, (without wideContent 0 0).acpiGetS5 0x2000C0 52 =
        some (some (x % 2 ^ 16, y % 2 ^ 16)) ∧ wideContent.S5Package 0x2000C0 52 x y := by
  have hread : ∀ a, (without wideContent 0 0).read a = some (wideContent a) := by
    intro a
    simp only [without, Nat.not_lt_zero, and_false, if_false]
  have hfind : (without wideContent 0 0).acpiFindFadt = some (some 0x200040) := by decide +kernel
  have hs5 : (without wideContent 0 0).acpiGetS5 0x2000C0 52 = some (some (5, 7)) := by
    decide +kernel
  constructor
  · obtain ⟨r, hr, htable⟩ := (acpi_in_tables (without wideContent 0 0) wideContent).1
      (fun a _ ↦ hread a) (fun _ h ↦ wideContent_passes h)
    obtain rfl := Option.some.inj (hr.symm.trans hfind)
    exact ⟨_, hr, htable _ rfl, rfl⟩
  · obtain ⟨r, hr, hpackage⟩ := (acpi_in_tables (without wideContent 0 0) wideContent).2
      0x2000C0 52 (fun a _ _ ↦ hread a)
    obtain rfl := Option.some.inj (hr.symm.trans hs5)
    obtain ⟨x, y, hxy, he⟩ := hpackage _ rfl
    exact ⟨x, y, he ▸ hs5, hxy⟩

/-- The result for an element is cut to sixteen bits, and the search for the root pointer reads the
word at 0x40E, the extended BIOS data area and the area of the BIOS, which no declared length
covers. -/
theorem not_acpi_in_tables :
    (wideContent.Passes 0x2000C0 ∧ wideContent.dword 0x2000C4 = 52 ∧
      (without wideContent 0 0).acpiGetS5 0x2000C0 52 = some (some (5, 7)) ∧
      ¬ wideContent.S5Package 0x2000C0 52 5 7) ∧
    (∀ p, wideContent.Table p → wideContent.Passes p) ∧
    ∀ area ∈ [(0x40E, 0x410), (0x9FC00, 0xA0000), (0xE0000, 0xE0010)],
      (∀ p, wideContent.Rsdp p → p + wideContent.rsdpLength p ≤ area.1 ∨ area.2 ≤ p) ∧
      (∀ p, wideContent.Table p → p + wideContent.dword (p + 4) ≤ area.1 ∨ area.2 ≤ p) ∧
      (without wideContent area.1 area.2).acpiFindFadt = none := by
  refine ⟨⟨⟨by decide, by decide, by decide +kernel⟩, by decide, by decide +kernel, ?_⟩,
    fun _ h ↦ wideContent_passes h, fun area harea ↦ ⟨fun p hp ↦ .inr ?_, fun p hp ↦ .inr ?_, ?_⟩⟩
  · rintro ⟨i, p, u, v, hi, hsig, -, hp, -, hx, -, hle⟩
    have hplace : ∀ i < 52, wideContent (0x2000C0 + i) = 95 → wideContent (0x2000C0 + i + 1) = 83 →
        i = 36 := by decide +kernel
    obtain rfl := hplace i (by omega) (hsig 0 (by decide)) (hsig 1 (by decide))
    have hfollow : (wideContent (0x2000C0 + (36 + 5))).toNat / 64 = 0 := by decide
    rw [hfollow] at hp
    subst hp
    have hop : wideContent (0x2000C0 + (36 + 5 + (1 + 0) + 1)) = 0x0C := by decide
    have hvalue : ∀ x u, wideContent.AmlInteger (0x2000C0 + (36 + 5 + (1 + 0) + 1)) x u →
        x = 65541 := by
      intro x u h
      cases h with
      | zero h => exact absurd (hop.symm.trans h) (by decide)
      | one h => exact absurd (hop.symm.trans h) (by decide)
      | byte h => exact absurd (hop.symm.trans h) (by decide)
      | word h => exact absurd (hop.symm.trans h) (by decide)
      | dword h => decide
      | qword h => exact absurd (hop.symm.trans h) (by decide)
    exact absurd (hvalue 5 u hx) (by decide)
  · obtain rfl := wideContent_rsdp hp
    simp only [List.mem_cons, List.not_mem_nil, or_false] at harea
    rcases harea with rfl | rfl | rfl <;> decide
  · have hp := wideContent_table hp
    simp only [List.mem_cons, List.not_mem_nil, or_false] at harea
    rcases harea with rfl | rfl | rfl <;> dsimp only <;> omega
  · simp only [List.mem_cons, List.not_mem_nil, or_false] at harea
    rcases harea with rfl | rfl | rfl <;> decide +kernel

end AcpiMemory

end YabroOS.Platform
