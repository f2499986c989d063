import CxxKernel.Fs.Mounts
import CxxKernel.Fs.Paths

/-! The functions on paths and names as they run on `String` objects. Where the functions on values follow no null
pointer, the objects come to hold the values. -/
namespace CxxKernel.Text

namespace String
variable (s : String) (q : Word → Word)

/-- The loop of `Filesystem::pathParts`. -/
def pathPartsLoop (byte : Bytes) : ℕ → Word → Word → Word
  | 0, _, cnt => cnt
  | fuel + 1, p, cnt =>
    if p < s.m_length then pathPartsLoop byte fuel (p + 1) (if s.at' byte p = 0x2F then cnt + 1 else cnt)
    else cnt

/-- `Filesystem::pathParts`. The parameter is made in the memory `raw`, and left to the caller. -/
def pathParts (st : Store) (raw path : String) (p : Word) : Option (Store × Word) :=
  (ofString st raw path p).map fun (st, path) => (st, pathPartsLoop path st.byte path.m_length.toNat 0 0)

/-- The loop of `Filesystem::pathPart`. `q` gives the answers of the allocator by the position of the character. -/
def pathPartLoop (index : Word) : ℕ → Word → Word → Store → String → Option (Store × String)
  | 0, _, _, st, res => some (st, res)
  | fuel + 1, p, cnt, st, res =>
    if p < s.m_length then
      let c := s.at' st.byte p
      if c = 0x2F then
        if 0 < res.m_length then some (st, res) else pathPartLoop index fuel (p + 1) (cnt + 1) st res
      else if cnt = index then
        (addChar st res c (q p)).bind fun (st, res) => pathPartLoop index fuel (p + 1) cnt st res
      else pathPartLoop index fuel (p + 1) cnt st res
    else some (st, res)

def pathPart (st : Store) (raw path : String) (p index : Word) : Option (Store × String) :=
  (ofString st raw path p).bind fun (st, path) => pathPartLoop path q index path.m_length.toNat 0 0 st empty

/-- The end of `VFS::basedir`. -/
def basedir (st : Store) (mountpoint : String) : Option (Store × String) := right s q st (mountpoint.m_length + 1)

/-- The loop of `VFS::stripslash`. The answers of the allocator are given for each round. -/
def stripslashLoop (q : ℕ → Word → Word) (p : ℕ → Word) : ℕ → Store → String → Option (Store × String)
  | 0, _, _ => none
  | fuel + 1, st, res =>
    if res.at' st.byte 0 = 0x2F then
      (right res (q fuel) st 1).bind fun (st, tmp) =>
        (init st res tmp.m_str tmp.m_length (p fuel)).bind fun (st, res) =>
          stripslashLoop q p fuel (destroy st tmp) res
    else some (st, res)

def stripslash (q : ℕ → Word → Word) (p : ℕ → Word) (st : Store) (raw name : String) (p₀ : Word) :
    Option (Store × String) :=
  (ofString st raw name p₀).bind fun (st, res) => stripslashLoop q p (name.m_length.toNat + 1) st res

/-- A name on its way into `FileData`: the parameter of the constructor, and the field. -/
def keepName (st : Store) (param field name : String) (p p' : Word) : Option (Store × String) :=
  (ofString st param name p).bind fun (st, tmp) =>
    (ofString st field tmp p').map fun (st, m_name) => (destroy st tmp, m_name)

/-- The test of `getfile`. -/
def isNamed (byte : Bytes) (m_fs m_name fs name : String) : Bool := m_fs.eq byte fs && m_name.eq byte name

end String

section Paths
variable {st st' : Store} {s res r raw path : String} {v w : Value} {part out : List UInt8} {q : Word → Word}
  {fuel : ℕ} {p cnt index n : Word}

theorem ofString_m_null (h : String.ofString st raw path p = some (st', r)) : r.m_null = 0 := init_m_null h

theorem pathPartsLoop_value (hfuel : p.toNat + fuel = v.length) (hs : Stands st s v) (hnull : s.m_null = 0)
    (hv : Fs.pathPartsLoop v fuel p.toNat cnt = some n) : s.pathPartsLoop st.byte fuel p cnt = n := by
  induction fuel generalizing p cnt with
  | zero => exact Option.some.inj hv
  | succ fuel ih =>
    have hp : p < s.m_length := by
      rw [BitVec.lt_def, hs.length]
      omega
    have hnext := toNat_succ_of_lt hp
    obtain ⟨c, hc, hrest⟩ := Option.bind_eq_some_iff.mp hv
    rw [String.pathPartsLoop, if_pos hp, at'_value hs hnull hc]
    rw [← hnext] at hrest
    exact ih (by omega) hrest

theorem pathParts_value (hwf : Wf st.live) (hs : Stands st path v) (hv : Fs.pathParts raw.m_length v = some n)
    (h : String.pathParts st raw path p = some (st', cnt)) : cnt = n := by
  obtain ⟨⟨st₁, copy⟩, hcopy, heq⟩ := Option.map_eq_some_iff.mp h
  obtain ⟨rfl, rfl⟩ := Prod.mk.inj heq
  have hstands := (ofString_became hwf hs hcopy).stands
  have hloop := pathPartsLoop_value (p := 0) (Nat.zero_add _) hstands (ofString_m_null hcopy) hv
  rw [← hstands.length] at hloop
  exact hloop

theorem pathPartLoop_grown (hfuel : p.toNat + fuel = v.length) (hwf : Wf st.live) (hs : Stands st s v)
    (hnull : s.m_null = 0) (hres : Object st res part) (hempty : part = [] → res.m_str = 0)
    (hne : s.m_str ≠ 0 → s.m_str ≠ res.m_str) (hv : Fs.pathPartLoop v index fuel p.toNat cnt part = some out)
    (h : String.pathPartLoop s q index fuel p cnt st res = some (st', r)) :
    Grown st res st' r out ∧ (out = [] → r.m_str = 0) := by
  induction fuel generalizing p cnt st res part with
  | zero =>
    cases h
    obtain rfl := Option.some.inj hv
    exact ⟨grown_refl hwf hres, hempty⟩
  | succ fuel ih =>
    have hp : p < s.m_length := by
      rw [BitVec.lt_def, hs.length]
      omega
    have hnext : (p + 1).toNat = p.toNat + 1 := toNat_succ_of_lt hp
    have hfuel' : (p + 1).toNat + fuel = v.length := by omega
    obtain ⟨c, hc, hrest⟩ := Option.bind_eq_some_iff.mp hv
    rw [← hnext] at hrest
    rw [String.pathPartLoop, if_pos hp] at h
    dsimp only at h
    rw [at'_value hs hnull hc] at h
    by_cases hslash : c = 0x2F
    · have hlength : 0 < res.m_length ↔ 0 < part.length := by
        rw [← hres.denotes.length]
        rfl
      rw [if_pos hslash] at h hrest
      by_cases hsome : 0 < res.m_length
      · rw [if_pos hsome] at h
        rw [if_pos (hlength.mp hsome)] at hrest
        cases h
        obtain rfl := Option.some.inj hrest
        exact ⟨grown_refl hwf hres, hempty⟩
      · rw [if_neg hsome] at h
        rw [if_neg (mt hlength.mpr hsome)] at hrest
        exact ih hfuel' hwf hs hres hempty hne hrest h
    · rw [if_neg hslash] at h hrest
      by_cases hcnt : cnt = index
      · rw [if_pos hcnt] at h hrest
        obtain ⟨⟨st₁, res₁⟩, hadd, hloop⟩ := Option.bind_eq_some_iff.mp h
        have hgrown := addChar_grown hwf hres hadd
        obtain ⟨hs₁, hne₁⟩ := hgrown.stands hs hne
        have hsome : part ++ [c] = [] → res₁.m_str = 0 := fun hnil => absurd hnil (by simp)
        obtain ⟨hout, hnil⟩ := ih hfuel' hgrown.wf hs₁ hgrown.object hsome hne₁ hrest hloop
        exact ⟨hgrown.trans hout, hnil⟩
      · rw [if_neg hcnt] at h hrest
        exact ih hfuel' hwf hs hres hempty hne hrest h

theorem pathPart_became (hwf : Wf st.live) (hs : Stands st path v) (hv : Fs.pathPart raw.m_length v index = some w)
    (h : String.pathPart q st raw path p index = some (st', r)) : Became st 0 st' r w := by
  obtain ⟨⟨st₁, copy⟩, hcopy, hloop⟩ := Option.bind_eq_some_iff.mp h
  obtain ⟨out, hout, rfl⟩ := Option.map_eq_some_iff.mp hv
  have hbecame := ofString_became hwf hs hcopy
  dsimp only at hloop
  rw [hbecame.stands.length] at hloop
  obtain ⟨hgrown, hnil⟩ := pathPartLoop_grown (p := 0) (Nat.zero_add _) hbecame.wf hbecame.stands
    (ofString_m_null hcopy) (object_empty st₁) (fun _ => rfl) id hout hloop
  exact hbecame.trans ((hgrown.became hnil).of_new _)

end Paths

section Vfs
variable {φ : Type} {vfs : Fs.VFS φ} {fs : φ} {st st' : Store} {s res r raw name : String} {v w : Value}
  {chars : List UInt8} {q : Word → Word} {qs : ℕ → Word → Word} {ps : ℕ → Word} {fuel : ℕ} {p p' : Word}

/-- `startsWith` compares the characters, which is what `VFS::access` asks for. -/
theorem startsWith_object {o : String} {chars' : List UInt8} (hs : Object st s chars) (ho : Object st o chars') :
    s.startsWith st.byte o = Fs.Str.startsWith chars chars' := by
  have hlength := hs.denotes.length
  have hlength' := ho.denotes.length
  rw [Bool.eq_iff_iff, Fs.Str.startsWith_iff, String.startsWith]
  by_cases hlt : s.m_length < o.m_length
  · rw [if_pos hlt]
    rw [BitVec.lt_def] at hlt
    refine iff_of_false Bool.false_ne_true fun h => ?_
    have hle := h.length_le
    omega
  · rw [if_neg hlt, sameChars_iff, hlength', List.prefix_iff_eq_take]
    rw [BitVec.lt_def, not_lt] at hlt
    by_cases hnil : chars' = []
    · rw [hnil]
      exact iff_of_true rfl rfl
    · have hnonnull' : o.m_str ≠ 0 := fun hnull => hnil (ho.held.null hnull)
      have hpos : 0 < chars'.length := List.length_pos_iff.mpr hnil
      have hnonnull : s.m_str ≠ 0 := by
        intro hnull
        rw [hs.held.null hnull, List.length_nil] at hlength
        omega
      have htake : read st.byte s.m_str chars'.length = chars.take chars'.length := by
        have hread := hs.held.chars hnonnull
        have hsplit : chars.length = chars'.length + (chars.length - chars'.length) := by omega
        rw [hsplit, read_append] at hread
        have hfirst := congrArg (List.take chars'.length) hread
        rwa [List.take_left' (length_read ..)] at hfirst
      rw [htake, ho.held.chars hnonnull', eq_comm]

theorem basedir_became {mountpoint : String} (hwf : Wf st.live) (hs : Stands st s (.text chars))
    (hm : Object st mountpoint (vfs.mountpoint fs)) (h : String.basedir s q st mountpoint = some (st', r)) :
    Became st 0 st' r (vfs.basedir chars (some fs)) := by
  have hone : (1 : Word).toNat = 1 := rfl
  have hshort := hm.short
  have hn : (mountpoint.m_length + 1).toNat = (vfs.mountpoint fs).length + 1 := by
    rw [BitVec.toNat_add, hm.denotes.length, hone, Nat.mod_eq_of_lt (by omega)]
  refine right_became hwf hs ?_ h
  rw [hn]
  rfl

theorem stripslashLoop_became (hwf : Wf st.live) (hs : Stands st res v) (hnull : res.m_null = 0)
    (hv : Fs.VFS.stripslashLoop fuel v = some w)
    (h : String.stripslashLoop qs ps fuel st res = some (st', r)) : Became st res.m_str st' r w := by
  induction fuel generalizing st res v with
  | zero => cases h
  | succ fuel ih =>
    obtain ⟨c, hc, hrest⟩ := Option.bind_eq_some_iff.mp hv
    rw [String.stripslashLoop, at'_value (p := 0) hs hnull hc] at h
    by_cases hslash : c = 0x2F
    · rw [if_pos hslash] at h hrest
      obtain ⟨rest, hright, hloop⟩ := Option.bind_eq_some_iff.mp hrest
      obtain ⟨⟨st₁, tmp⟩, htmp, h⟩ := Option.bind_eq_some_iff.mp h
      obtain ⟨⟨st₂, res₂⟩, hres, h⟩ := Option.bind_eq_some_iff.mp h
      have hbecame := right_became (n := 1) hwf hs hright htmp
      have hassign := init_became hbecame.wf hbecame.stands hres
      rw [hs.m_length] at hassign
      have hround := hbecame.through hassign
      exact (hround.trans (ih hround.wf hround.stands ((init_m_null hres).trans hnull) hloop h)).of_new _
    · rw [if_neg hslash] at h hrest
      cases h
      obtain rfl := Option.some.inj hrest
      exact ⟨hwf, hs, fun o u ho hne => ⟨ho, hne⟩⟩

/-- `stripslash` makes an object for the path without leading slashes. -/
theorem stripslash_became (hwf : Wf st.live) (hs : Stands st name v)
    (hv : Fs.VFS.stripslash raw.m_length v = some w)
    (h : String.stripslash qs ps st raw name p = some (st', r)) : Became st 0 st' r w := by
  obtain ⟨⟨st₁, res⟩, hcopy, hloop⟩ := Option.bind_eq_some_iff.mp h
  have hbecame := ofString_became hwf hs hcopy
  dsimp only at hloop
  rw [hs.length] at hloop
  exact hbecame.trans (stripslashLoop_became hbecame.wf hbecame.stands (ofString_m_null hcopy) hv hloop)

/-- The field holds the copy of the copy that `Filesystem.mapfile` stores. -/
theorem keepName_became {param field : String} (hwf : Wf st.live) (hs : Stands st name v)
    (h : String.keepName st param field name p p' = some (st', r)) :
    Became st 0 st' r ((v.init param.m_length).init field.m_length) := by
  obtain ⟨⟨st₁, tmp⟩, htmp, h⟩ := Option.bind_eq_some_iff.mp h
  obtain ⟨⟨st₂, m_name⟩, hname, heq⟩ := Option.map_eq_some_iff.mp h
  obtain ⟨rfl, rfl⟩ := Prod.mk.inj heq
  have hbecame := ofString_became hwf hs htmp
  exact hbecame.through (ofString_became hbecame.wf hbecame.stands hname)

theorem getName_became {param field : String} {st₁ : Store} {m_name : String} (hwf : Wf st.live)
    (hs : Stands st name v) (hkeep : String.keepName st param field name p p' = some (st₁, m_name))
    (h : String.ofString st₁ raw m_name p = some (st', r)) :
    Became st₁ 0 st' r (((v.init param.m_length).init field.m_length).init raw.m_length) := by
  have hkept := keepName_became hwf hs hkeep
  exact ofString_became hkept.wf hkept.stands h

/-- `getfile` compares the values that the fields hold. -/
theorem isNamed_value {κ : Type} {d : Fs.FileData φ κ} {m_fs m_name fs name : String} {b : Bool}
    (hm_fs : Stands st m_fs d.m_fs) (hm_name : Stands st m_name d.m_name) (hfs : Stands st fs v)
    (hname : Stands st name w) (hb : d.isNamed v w = some b) :
    String.isNamed st.byte m_fs m_name fs name = b := by
  obtain ⟨same, hsame, hrest⟩ := Option.bind_eq_some_iff.mp hb
  rw [String.isNamed, eq_value hm_fs hfs hsame]
  cases same with
  | true => exact (Bool.true_and _).trans (eq_value hm_name hname hrest)
  | false => exact Option.some.inj hrest

end Vfs

end CxxKernel.Text
