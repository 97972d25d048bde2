import YabroOS.Fat.Import

namespace YabroOS.Fat

open Lib

inductive BootfsCall
  | fileSize (path : List UInt8)
  | pathIsDir (path : List UInt8)
  | readRootFile (path : List UInt8) (offset len : ℕ)
  | execveSourceRead (source : ExecSource) (offset len : ℕ)
  | importRoot

namespace Volume

variable {f : Volume} {path : List UInt8} {e offset len fuel : ℕ}

def Names (f : Volume) (path : List UInt8) (e : ℕ) : Prop :=
  f.Leads (fun _ ↦ true) f.rootCluster (fatPathComponents path) e ∧ f.isDir e = false

/-- The call returns and reads no byte outside the image; a read returns less than it was asked for
unless the chain of the file covers the range. -/
def Robust (f : Volume) : BootfsCall → Prop
  | .fileSize path => ∃ fuel r, f.bootfsFileSize fuel path = .ret r
  | .pathIsDir path => ∃ fuel r, f.bootfsPathIsDir fuel path = .ret r
  | .readRootFile path offset len =>
    ∃ fuel bytes, f.bootfsReadRootFile fuel path offset len = .ret bytes ∧
      ∀ e, f.Names path e → 0 < f.wanted e offset len → bytes.length = f.wanted e offset len →
        f.Covers e offset len
  | .execveSourceRead source offset len => ∃ fuel r, f.kernelExecveSourceRead fuel source offset
      len = .ret r ∧ ∀ e bytes, source = .fat e → r = some bytes → 0 < f.wanted e offset len →
        bytes.length = f.wanted e offset len → f.Covers e offset len
  | .importRoot => ∃ fuel calls, f.importFatRootIntoVfs fuel = .ret calls

/-- The chains that the call follows are valid as far as it follows them, and have an end. -/
def Sound (f : Volume) : BootfsCall → Prop
  | .fileSize path => f.PathSound (fun _ ↦ true) f.rootCluster (fatPathComponents path)
  | .pathIsDir path => f.PathSound f.fatClusterValid f.rootCluster (fatPathComponents path)
  | .readRootFile path offset len => len ≠ 0 →
      f.PathSound (fun _ ↦ true) f.rootCluster (fatPathComponents path) ∧ ∀ e, f.Names path e →
        f.ReadSound e offset len
  | .execveSourceRead source offset len =>
    ∀ e, source = .fat e → offset + len ≤ f.fileSize e → f.ReadSound e offset len
  | .importRoot => f.ImportSound 17 f.rootCluster [47]

theorem findFile_returns : (∃ fuel r, f.findFileInRoot fuel path = .ret r) ↔
    f.PathSound (fun _ ↦ true) f.rootCluster (fatPathComponents path) := by
  rw [← walk_returns]
  exact Out.exists_bind_ret

theorem findFile_some : (∃ fuel, f.findFileInRoot fuel path = .ret (some e)) ↔ f.Names path e := by
  unfold Names
  rw [← walk_some]
  constructor
  · rintro ⟨fuel, h⟩
    obtain ⟨r, h, hr⟩ := Out.bind_eq_ret.1 h
    cases r with
    | none => cases hr
    | some d =>
      have hd := Out.ret.inj hr
      simp only [Option.bind_some] at hd
      split_ifs at hd with hdir
      cases hd
      exact ⟨⟨fuel, h⟩, by simpa using hdir⟩
  · rintro ⟨⟨fuel, h⟩, hdir⟩
    refine ⟨fuel, Out.bind_eq_ret.2 ⟨some e, h, ?_⟩⟩
    rw [Option.bind_some, hdir]
    rfl

theorem findFile_mono {fuel' : ℕ} (h : fuel ≤ fuel') (path : List UInt8) :
    Out.Le (f.findFileInRoot fuel path) (f.findFileInRoot fuel' path) :=
  (walk_mono h _ _).bind (fun _ ↦ .refl _)

theorem fileSize_returns : (∃ fuel r, f.bootfsFileSize fuel path = .ret r) ↔
    f.PathSound (fun _ ↦ true) f.rootCluster (fatPathComponents path) := by
  rw [← findFile_returns]
  exact Out.exists_bind_ret

theorem pathIsDir_returns : (∃ fuel r, f.bootfsPathIsDir fuel path = .ret r) ↔
    f.PathSound f.fatClusterValid f.rootCluster (fatPathComponents path) := by
  unfold bootfsPathIsDir
  by_cases hnil : cstr path = []
  · have hcomps : fatPathComponents path = [] := by
      rw [fatPathComponents, hnil]
      rfl
    rw [hcomps]
    exact ⟨fun _ ↦ trivial, fun _ ↦ ⟨0, false, if_pos hnil⟩⟩
  by_cases hcomps : fatPathComponents path = []
  · rw [hcomps]
    refine ⟨fun _ ↦ trivial, fun _ ↦ ⟨0, true, ?_⟩⟩
    rw [if_neg hnil, if_pos rfl]
  · simp only [if_neg hnil, if_neg hcomps]
    rw [← walk_returns]
    exact Out.exists_bind_ret

theorem readRoot_of_none (h : f.findFileInRoot fuel path = .ret none) :
    f.bootfsReadRootFile fuel path offset len = .ret [] := by
  unfold bootfsReadRootFile
  split_ifs
  · rfl
  · rw [h]
    rfl

theorem readRoot_of_some (hlen : len ≠ 0) (h : f.findFileInRoot fuel path = .ret (some e)) :
    f.bootfsReadRootFile fuel path offset len = f.readFileRangeByEntry fuel e offset len := by
  rw [bootfsReadRootFile, if_neg hlen, h]
  rfl

theorem names_unique {d : ℕ} (he : f.Names path e) (hd : f.Names path d) : e = d := by
  obtain ⟨fuel, he⟩ := findFile_some.2 he
  obtain ⟨fuel', hd⟩ := findFile_some.2 hd
  have he := findFile_mono (le_max_left fuel fuel') path _ he
  have hd := findFile_mono (le_max_right fuel fuel') path _ hd
  exact Option.some.inj (Out.ret.inj (he.symm.trans hd))

theorem readRoot_robust_iff (hm : f.mounted = true) :
    f.Robust (.readRootFile path offset len) ↔ f.Sound (.readRootFile path offset len) := by
  unfold Robust Sound
  by_cases hlen : len = 0
  · refine ⟨fun _ h ↦ absurd hlen h, fun _ ↦ ⟨0, [], if_pos hlen, fun e _ hw ↦ ?_⟩⟩
    simp only [wanted, hlen, Nat.zero_min, lt_irrefl] at hw
  constructor
  · rintro ⟨fuel, bytes, h, hfull⟩ -
    rw [bootfsReadRootFile, if_neg hlen] at h
    obtain ⟨r, hr, -⟩ := Out.bind_eq_ret.1 h
    refine ⟨findFile_returns.1 ⟨fuel, r, hr⟩, fun e he ↦ (read_robust_iff hm).1 ?_⟩
    obtain ⟨fuel', hfind⟩ := findFile_some.2 he
    cases r with
    | none =>
      have h₁ := findFile_mono (le_max_left fuel fuel') path _ hr
      have h₂ := findFile_mono (le_max_right fuel fuel') path _ hfind
      cases h₁.symm.trans h₂
    | some d =>
      obtain rfl := names_unique he (findFile_some.1 ⟨fuel, hr⟩)
      rw [hr] at h
      exact ⟨fuel, bytes, h, hfull e he⟩
  · intro hsound
    obtain ⟨hpath, hread⟩ := hsound hlen
    obtain ⟨fuel, r, hr⟩ := findFile_returns.2 hpath
    cases r with
    | none =>
      exact ⟨fuel, [], readRoot_of_none hr, fun e _ hw hlen ↦ absurd hlen.symm hw.ne'⟩
    | some d =>
      have hd := findFile_some.1 ⟨fuel, hr⟩
      obtain ⟨fuel', bytes, hbytes, hfull⟩ := (read_robust_iff hm).2 (hread d hd)
      have hr := findFile_mono (le_max_left fuel fuel') path _ hr
      refine ⟨max fuel fuel', bytes, ?_, fun e he ↦ ?_⟩
      · rw [readRoot_of_some hlen hr]
        exact read_mono (le_max_right fuel fuel') d offset len _ hbytes
      · rw [names_unique he hd]
        exact hfull

theorem execRead_robust_iff (hm : f.mounted = true) (source : ExecSource) :
    f.Robust (.execveSourceRead source offset len) ↔
      f.Sound (.execveSourceRead source offset len) := by
  cases source with
  | vfs data =>
    refine ⟨fun _ e he ↦ (by cases he), fun _ ↦ ?_⟩
    have hret : ∃ r, f.kernelExecveSourceRead 0 (.vfs data) offset len = .ret r := by
      unfold kernelExecveSourceRead
      split_ifs
      · exact ⟨none, rfl⟩
      · exact ⟨some [], rfl⟩
      · exact ⟨_, rfl⟩
    obtain ⟨r, hr⟩ := hret
    exact ⟨0, r, hr, fun e bytes he ↦ (by cases he)⟩
  | fat e =>
    unfold Robust Sound kernelExecveSourceRead
    by_cases hbad : f.fileSize e < offset ∨ f.fileSize e - offset < len
    · refine ⟨fun _ d hd hle ↦ ?_, fun _ ↦ ⟨0, none, if_pos hbad, fun d bytes _ hr ↦ (by cases hr)⟩⟩
      cases hd
      omega
    by_cases hlen : len = 0
    · refine ⟨fun _ d hd _ hw ↦ ?_, fun _ ↦ ⟨0, some [], ?_, fun d bytes _ hr hw hfull ↦ ?_⟩⟩
      · simp only [wanted, hlen, Nat.zero_min, lt_irrefl] at hw
      · exact (if_neg hbad).trans (if_pos hlen)
      · simp only [wanted, hlen, Nat.zero_min, lt_irrefl] at hw
    simp only [ExecSource.size, if_neg hbad, if_neg hlen]
    constructor
    · rintro ⟨fuel, r, h, hfull⟩ d hd -
      cases hd
      obtain ⟨bytes, hbytes, hr⟩ := Out.bind_eq_ret.1 h
      exact (read_robust_iff hm).1 ⟨fuel, bytes, hbytes, hfull e bytes rfl (Out.ret.inj hr).symm⟩
    · intro hsound
      obtain ⟨fuel, bytes, hbytes, hfull⟩ := (read_robust_iff hm).2 (hsound e rfl (by omega))
      refine ⟨fuel, some bytes, Out.bind_eq_ret.2 ⟨bytes, hbytes, rfl⟩, fun d bytes' hd hr ↦ ?_⟩
      cases hd
      cases hr
      exact hfull

/-- The calls that read the module return, inside it and with no more than the chains hold, exactly
when the chains that they follow are valid and have an end. -/
theorem bootfs_robust_iff (f : Volume) (hm : f.mounted = true) (call : BootfsCall) :
    f.Robust call ↔ f.Sound call := by
  cases call with
  | fileSize path => exact fileSize_returns
  | pathIsDir path => exact pathIsDir_returns
  | readRootFile path offset len => exact readRoot_robust_iff hm
  | execveSourceRead source offset len => exact execRead_robust_iff hm source
  | importRoot => exact import_returns

end Volume

def oneCluster (cell : List UInt8) : Volume where
  bytes o := ((List.replicate 11 0 ++ [32, 0, 1, 2, 0, 1] ++ List.replicate 19 0 ++ [1, 0, 0, 0] ++
    List.replicate 4 0 ++
    [2, 0, 0, 0] ++ List.replicate 24 0 ++ cell ++ List.replicate 20 0 ++ [0xE5] ++
      List.replicate 31 0)[o]?).getD 0
  size := 128

theorem cyclic_chain (k : ℕ) : (oneCluster [2, 0, 0, 0]).chain 2 k = 2 := by
  induction k with
  | zero => rfl
  | succ k ih =>
    rw [Volume.chain_succ', ih]
    decide +kernel

theorem cyclic_found (name : List UInt8) (k : ℕ) (lfn : List UInt8) :
    (Out.scan ((oneCluster [2, 0, 0, 0]).findStep name) ((oneCluster [2, 0, 0, 0]).dir 2 k)
      lfn).isRight = false := by
  have hentries : (oneCluster [2, 0, 0, 0]).entriesOf 2 = [96] := by decide +kernel
  have hbyte : (oneCluster [2, 0, 0, 0]).bytes 96 = 0xE5 := by decide +kernel
  have hnext : (oneCluster [2, 0, 0, 0]).next 2 = 2 := cyclic_chain 1
  induction k generalizing lfn with
  | zero => rfl
  | succ k ih =>
    rw [Volume.dir_succ, hentries, hnext, List.singleton_append, Out.scan, Volume.findStep, hbyte]
    exact ih (lfn.set 0 0)

/-- A lookup in a directory whose chain is a cycle does not return. -/
theorem cyclic_lookup_spins : (oneCluster [2, 0, 0, 0]).mounted = true ∧
    ¬ (oneCluster [2, 0, 0, 0]).Robust (.fileSize [97]) := by
  refine ⟨by decide +kernel, fun h ↦ ?_⟩
  have hroot : (oneCluster [2, 0, 0, 0]).rootCluster = 2 := by decide +kernel
  have hpath : Volume.fatPathComponents [97] = [[97]] := by decide +kernel
  have hsound := Volume.fileSize_returns.1 h
  rw [hroot, hpath] at hsound
  obtain ⟨k, -, hlast | hright⟩ := hsound.1
  · rw [cyclic_chain] at hlast
    revert hlast
    decide +kernel
  · have hnot := cyclic_found [97] (k + 1) noLfn
    exact Bool.false_ne_true (hnot.symm.trans hright)

theorem bootfs_robust_one_cluster : (oneCluster [0xFF, 0xFF, 0xFF, 0x0F]).mounted = true ∧
    (oneCluster [0xFF, 0xFF, 0xFF, 0x0F]).Robust (.fileSize [97]) := by
  have hm : (oneCluster [0xFF, 0xFF, 0xFF, 0x0F]).mounted = true := by decide +kernel
  refine ⟨hm, (Volume.bootfs_robust_iff _ hm (.fileSize [97])).2 ?_⟩
  have hroot : (oneCluster [0xFF, 0xFF, 0xFF, 0x0F]).rootCluster = 2 := by decide +kernel
  have hpath : Volume.fatPathComponents [97] = [[97]] := by decide +kernel
  rw [Volume.Sound, hroot, hpath]
  refine ⟨⟨0, fun i hi ↦ ?_, .inl ?_⟩, fun e _ h ↦ absurd rfl h⟩
  · obtain rfl := Nat.le_zero.1 hi
    exact .inr (by decide +kernel)
  · decide +kernel

end YabroOS.Fat
