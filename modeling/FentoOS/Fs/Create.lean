import FentoOS.Fs.Tree

/-!
# Creating files and directories

`minixfs_creat` and `minixfs_mkdir` take an inode, write it and enter it in the parent.  When
the parent has no room they free the inode again.  The zones that have been taken by then
stay marked.
-/

namespace FentoOS.Fs

open FentoOS.Lib Function

/-- The slots on the way to the block behind the last one of a file. -/
def File.nextSlots (f : File) : Slot → Prop := slotsFor (nblocks f.attr) (nblocks f.attr + 1)

theorem File.nextSlots_path (f : File) {s t : Slot} (hs : slotOf (nblocks f.attr) = some s)
    (ht : t ∈ s.path) : f.nextSlots t :=
  ⟨_, s, le_rfl, Nat.lt_succ_self _, hs, ht⟩

section

variable {g : Superblock} {d : Disk} {F : Volume} {v : View} {parent : Nat} {f : File}

/-- When all lines are in use, `dir_add` succeeds only if the next block can get a zone. -/
theorem Stores.dirAdd_fits (h : Stores g d v F) (hf : F parent = some f)
    (htaken : ∀ e < f.cap, f.ino e ≠ 0) {name : List UInt8} {ino : Nat}
    (hok : (Fs.dirAdd g d parent name ino).1 = true) :
    Fits v parent (nblocks f.attr) (nblocks f.attr + 1) := by
  have hl : F.Live parent := ⟨f, hf⟩
  have hr := h.good.owned.readable hl
  obtain rfl := h.good.file hf
  -- a block without a zone would have free lines
  have hsolid : ∀ {b}, b < nblocks (v.inode parent) → v.blockZone parent b ≠ 0 := by
    intro b hb hz
    refine htaken (16 * b + 0) (Nat.mul_lt_mul_of_pos_left hb (by decide)) ?_
    unfold File.ino
    rw [entry_div b (by decide), entry_mod b (by decide)]
    change direntIno (v.block parent b) 0 = 0
    rw [hr.block_of_no_zone hz]
    rfl
  rw [Fs.dirAdd, h.shows.readInode hr.number] at hok
  obtain ⟨w, -, ht, hspent, hcases⟩ := h.shows.addFrom
    (Spent.supply (v := v) (S := (v.file parent).nextSlots)) hl h.good.owned (.refl h.good.padded)
    (fun s hs t ht ↦ (v.file parent).nextSlots_path hs ht) hsolid name ino
    (Nat.zero_add (nblocks (v.inode parent))) fun e he ↦ absurd he (Nat.not_lt_zero e)
  rcases hcases with ⟨-, ⟨e, he, hfree, -⟩, -⟩ | ⟨-, ⟨-, hz, -⟩ | ⟨hfalse, -⟩⟩
  · exact absurd hfree (htaken e he)
  · obtain ⟨s, hs, -⟩ := slotOf_of_blockZone hz
    refine hspent.fits ht.owned hl (lt_of_slotOf hs) fun b hlo hhi ↦ ?_
    obtain rfl : b = nblocks (v.inode parent) := le_antisymm (Nat.lt_succ_iff.mp hhi) hlo
    exact hz
  · exact absurd (hfalse.symm.trans hok) Bool.false_ne_true

/-- What `minixfs_creat` does in a parent in which the name is not found.  If the parent is a
directory, the new file is entered there. -/
theorem Stores.creatIn (h : Stores g d v F) (hf : F parent = some f)
    (hlt : ∀ {ino}, IsIno g ino → ino < 2 ^ 32) {leaf : List UInt8} (hleaf : IsCString leaf)
    (hnone : Fs.dirLookup g d parent leaf = none) (mode : Nat) :
    (∃ v', Spent g parent v f.nextSlots v' ∧
        (Full v.imap ∧ v' = v ∨ ¬Full v.imap ∧ Crowded f parent v') ∧ v'.imap = v.imap ∧
        (creatIn g d parent leaf mode).1 = -1 ∧
        Stores g (creatIn g d parent leaf mode).2 v' F) ∨
      ∃ ino, IsIno g ino ∧ v.imap ino = false ∧ F ino = none ∧
        ((∀ e < f.cap, f.ino e ≠ 0) → Fits v parent (nblocks f.attr) (nblocks f.attr + 1)) ∧
        (creatIn g d parent leaf mode).1 = sint32 ino ∧
        (f.attr.isDir → ∃ v' f', v'.imap = update v.imap ino true ∧
          f.Added leaf ino f' ∧ Stores g (creatIn g d parent leaf mode).2 v'
            (update (update F ino (some (File.empty (freshFile mode)))) parent
              (some f'))) := by
  simp only [Fs.creatIn, hnone]
  rcases h.allocInode (freshFile_wf mode) rfl rfl with
    ⟨hfull, heq⟩ | ⟨ino, hino, hvac, hfree, hres, hs⟩
  · simp only [heq, if_true]
    exact .inl ⟨v, .refl h.good.padded, .inl ⟨hfull, rfl⟩, rfl, trivial, h⟩
  · have hpos : ino ≠ 0 := Nat.one_le_iff_ne_zero.mp hino.1
    have hne : parent ≠ ino := by
      rintro rfl
      rw [hf] at hfree
      cases hfree
    simp only [hres, if_neg hpos]
    set F₀ := update F ino (some (File.empty (freshFile mode))) with hF₀
    set v₀ := (v.setImap ino true).setInode ino (freshFile mode) with hv₀
    set d₀ := (Fs.writeInode g (Fs.allocInode g d).2 ino (freshFile mode)).2
    have hf₀ : F₀ parent = some f := by rw [hF₀, update_of_ne hne, hf]
    have hspent₀ : Spent g parent v₀ f.nextSlots v₀ := .refl h.good.padded
    have hback : ∀ {w}, Spent g parent v₀ f.nextSlots w → Spent g parent v f.nextSlots w :=
      fun hw ↦ hw.congr_left (fun s ↦ (zone_setInode_of_ne _ _ hne s).symm) rfl
    cases hok : (Fs.dirAdd g d₀ parent leaf ino).1 with
    | false =>
      obtain ⟨v', himap, hspent, hs', hcrowded⟩ := hs.dirAdd_fails hf₀ Spent.supply hspent₀
        (fun s hs t ht ↦ f.nextSlots_path hs ht) hok
      have hdone := hs'.freeInode hino
      rw [hF₀, update_idem, ← hfree, update_eq_self] at hdone
      simp only [Bool.false_eq_true, if_false]
      refine .inl ⟨v'.setImap ino false, ?_, .inr ⟨fun hfull ↦ ?_, hcrowded.taken,
        hcrowded.no_zone, hcrowded.why⟩, ?_, trivial, hdone⟩
      · exact (hback hspent).congr (fun _ ↦ rfl) rfl
      · exact Bool.false_ne_true (hvac.1.symm.trans (hfull ino))
      · rw [View.setImap_imap, himap]
        change update (update v.imap ino true) ino false = v.imap
        rw [update_idem, ← hvac.1, update_eq_self]
    | true =>
      simp only [if_true]
      refine .inr ⟨ino, hino, hvac.1, hfree, fun htaken ↦ ?_, rfl, fun hdir ↦ ?_⟩
      · refine (hs.dirAdd_fits hf₀ htaken hok).congr (fun s ↦ ?_) rfl
        exact zone_setInode_of_ne _ _ hne s
      obtain ⟨v', himap, -, -, ⟨f', hadd, -, -, hs'⟩ | ⟨hc, -⟩⟩ := hs.dirAdd hf₀ hdir Spent.supply
        hspent₀ (fun s hs t ht ↦ f.nextSlots_path hs ht) hleaf hpos (hlt hino)
      · exact ⟨v', f', himap, hadd, hs'⟩
      · exact absurd (hok.symm.trans hc) Bool.true_eq_false.mp

/-! ## The first entries of a directory -/

/-- A directory with the entries `.` and `..` and no other. -/
structure NewDir (fd : File) (ino parent : Nat) : Prop where
  isDir : fd.attr.isDir
  nlinks : fd.attr.iNlinks = 2
  entry : ∃ e e' : Nat, e ≠ e' ∧ fd.entry = Function.update
    (Function.update (fun _ ↦ none) e (some (dot, ino))) e' (some (dotdot, parent))

theorem freshDir_isDir (mode : Nat) : (File.empty (freshDir mode)).attr.isDir := by
  change (0o040000 ||| (mode &&& 0o7777)) &&& 0o170000 = 0o040000
  rw [Nat.and_or_distrib_right, Nat.and_assoc]
  simp

theorem File.empty_entry {i : Inode} (hsize : i.iSize = 0) :
    (File.empty i).entry = fun _ ↦ none := by
  have hcap : (File.empty i).cap = 0 := by
    change 16 * nblocks i = 0
    rw [nblocks, hsize]
    decide
  funext e
  exact File.entry_of_cap_le (hcap ▸ Nat.zero_le e)

/-- A slot on the way to the first block of a file is that of the block. -/
theorem slotsFor_first {t : Slot} (h : slotsFor 0 1 t) : t = .top 0 := by
  obtain ⟨b, s, -, hb, hs, ht⟩ := h
  obtain rfl : b = 0 := Nat.lt_one_iff.mp hb
  obtain rfl : s = .top 0 := (Option.some.inj hs).symm
  exact List.mem_singleton.mp ht

/-- `.` and `..` are entered in a new directory.  This takes one zone. -/
theorem Stores.dots (h : Stores g d v F) {ino mode : Nat}
    (hf : F ino = some (File.empty (freshDir mode))) (hzone : ∀ s, v.zone ino s = 0)
    (hpos : ino ≠ 0) (hlt : ino < 2 ^ 32) (hpos' : parent ≠ 0) (hlt' : parent < 2 ^ 32) :
    ((Fs.dirAdd g d ino dot ino).1 = false ∧ Full v.zmap ∧ ∃ v', v'.imap = v.imap ∧
        v'.zmap = v.zmap ∧ Stores g (Fs.dirAdd g d ino dot ino).2 v' F) ∨
      ((Fs.dirAdd g d ino dot ino).1 = true ∧
        (Fs.dirAdd g (Fs.dirAdd g d ino dot ino).2 ino dotdot parent).1 = true ∧
        ∃ v' fd, v'.imap = v.imap ∧ NewDir fd ino parent ∧ spare v' + 1 = spare v ∧
          (∀ {x s}, F.Live x → x ≠ ino → v'.zone x s = v.zone x s) ∧
          Stores g (Fs.dirAdd g (Fs.dirAdd g d ino dot ino).2 ino dotdot parent).2 v'
            (update F ino (some fd))) := by
  have hl : F.Live ino := ⟨_, hf⟩
  have hdot : IsCString dot := by decide
  have hdotdot : IsCString dotdot := by decide
  have hn : nblocks (File.empty (freshDir mode)).attr = 0 :=
    (by decide : wrap32 (0 + 1023) / 1024 = 0)
  have hslots : (File.empty (freshDir mode)).nextSlots = slotsFor 0 1 := by
    rw [File.nextSlots, hn]
  obtain ⟨v₁, himap₁, hspent, hother₁, hcases⟩ := h.dirAdd hf (freshDir_isDir mode)
    (Spent.supply (v := v) (S := slotsFor 0 1)) (.refl h.good.padded)
    (fun s hs t ht ↦ hslots ▸ File.nextSlots_path _ hs ht) hdot hpos hlt
  rcases hcases with ⟨f₁, hadd₁, hok₁, -, hs₁⟩ | ⟨hfail, hs₁, hcrowded⟩
  · have hf₁ : update F ino (some f₁) ino = some f₁ := update_self ..
    obtain ⟨size, hattr₁⟩ := hadd₁.attr
    obtain ⟨e, -, hentry₁⟩ := hadd₁.entry
    have hdir₁ : f₁.attr.isDir := by
      rw [hattr₁]
      exact freshDir_isDir mode
    rw [File.empty_entry rfl] at hentry₁
    have he := File.entry_eq_some.mp ((congrFun hentry₁ e).trans (update_self ..))
    -- a block has room for more than one entry
    obtain ⟨e', he', hblank⟩ : ∃ e' < f₁.cap, f₁.ino e' = 0 := by
      have hcap : ∃ e' < f₁.cap, e' ≠ e := by
        have hlt := he.1
        unfold File.cap at hlt ⊢
        by_cases h0 : e = 0
        · exact ⟨1, by omega, by omega⟩
        · exact ⟨0, by omega, fun hc ↦ h0 hc.symm⟩
      obtain ⟨e', he', hne⟩ := hcap
      refine ⟨e', he', (File.entry_eq_none he').mp ?_⟩
      rw [hentry₁, update_of_ne hne]
    obtain ⟨v₂, himap₂, hpadded, hother₂, hcases₂⟩ := hs₁.dirAdd hf₁ hdir₁
      (Padded.supply g _ ino fun _ ↦ True) hs₁.good.padded (fun _ _ _ _ ↦ trivial)
      hdotdot hpos' hlt'
    rcases hcases₂ with ⟨fd, hadd₂, hok₂, hzmap, hs₂⟩ | ⟨-, -, hcrowded⟩
    · refine .inr ⟨hok₁, hok₂, v₂, fd, himap₂.trans himap₁, ⟨?_, ?_, ?_⟩, ?_, ?_, ?_⟩
      · obtain ⟨size', hattr₂⟩ := hadd₂.attr
        rw [hattr₂]
        exact hdir₁
      · obtain ⟨size', hattr₂⟩ := hadd₂.attr
        rw [hattr₂, hattr₁]
        rfl
      · obtain ⟨e'', hnone, hentry₂⟩ := hadd₂.entry
        refine ⟨e, e'', ?_, ?_⟩
        · rintro rfl
          rw [hentry₁, update_self] at hnone
          cases hnone
        · rw [hentry₂, hentry₁]
          rfl
      · have hzmap' := hzmap.resolve_left fun hc ↦ hc e' he' hblank
        have hcount := hspent.count hs₁.good.owned ⟨f₁, hf₁⟩
        have hsolid := hs₁.good.solid hf₁ hdir₁
        have hblocks : 0 < nblocks (v₁.inode ino) := by
          have hlt := he.1
          rw [← nblocks_attr, (hs₁.readInode hf₁).2]
          unfold File.cap at hlt
          omega
        have hone : {t | v.zone ino t = 0 ∧ v₁.zone ino t ≠ 0} = {.top 0} := by
          ext t
          constructor
          · rintro ⟨hz, hne⟩
            by_contra ht
            rw [hspent.kept t (.inl fun hc ↦ ht (slotsFor_first hc))] at hne
            exact hne hz
          · rintro rfl
            exact ⟨hzone _, hsolid.zone hblocks⟩
        rw [hone, Set.ncard_singleton] at hcount
        rw [← hcount, spare, spare, hzmap']
      · intro x s hx hne
        rw [hother₂ (by rw [Volume.live_update hf]; exact hx) hne, hother₁ hx hne]
      · rwa [update_idem] at hs₂
    · exact absurd hblank (hcrowded.taken e' he')
  · -- the first block has got no zone, so nothing has been taken
    have hfirst : v₁.zone ino (.top 0) = 0 := by
      have hz := hcrowded.no_zone
      rw [hn] at hz
      exact hz
    have hzmap : v₁.zmap = v.zmap := by
      funext n
      refine Bool.eq_iff_iff.mpr ((hspent.zmap n).trans (or_iff_left ?_))
      rintro ⟨t, hz, hne, -⟩
      by_cases ht : slotsFor 0 1 t
      · rw [slotsFor_first ht] at hne
        exact hne hfirst
      · rw [hspent.kept t (.inl ht)] at hne
        exact hne hz
    have hfull := hcrowded.why.resolve_right (by rw [hn]; decide)
    rw [hzmap] at hfull
    exact .inl ⟨hfail, hfull, v₁, himap₁, hzmap, hs₁⟩

/-- What `minixfs_mkdir` does when it has got an inode. -/
theorem Stores.mkdirAt (h : Good g F v) {ino mode : Nat} (hf : F parent = some f)
    (hs : Stores g (Fs.writeInode g d ino (freshDir mode)).2
      ((v.setImap ino true).setInode ino (freshDir mode))
      (update F ino (some (File.empty (freshDir mode)))))
    (hino : IsIno g ino) (hvac : v.imap ino = false) (hfree : F ino = none)
    (hlt : ∀ {ino}, IsIno g ino → ino < 2 ^ 32) {leaf : List UInt8} (hleaf : IsCString leaf) :
    ((mkdirAt g d parent leaf mode ino).1 = -1 ∧ ∃ v', v'.imap = v.imap ∧
        Stores g (mkdirAt g d parent leaf mode ino).2 v' F ∧
        (Full v.zmap ∧ v'.zmap = v.zmap ∨ (∀ e < f.cap, f.ino e ≠ 0) ∧ spare v' < spare v ∧
          ¬(nblocks f.attr < maxBlocks ∧ missing v parent f.nextSlots < spare v))) ∨
      (mkdirAt g d parent leaf mode ino).1 = 0 ∧ ¬Full v.zmap ∧
        ((∀ e < f.cap, f.ino e ≠ 0) →
          nblocks f.attr < maxBlocks ∧ missing v parent f.nextSlots < spare v) ∧
        (f.attr.isDir → ∃ v' fd f',
        v'.imap = update v.imap ino true ∧ NewDir fd ino parent ∧ f.Added leaf ino f' ∧
        Stores g (mkdirAt g d parent leaf mode ino).2 v'
          (update (update F ino (some fd)) parent
            (some (f'.setNlinks ((f'.attr.iNlinks + 1) % 2 ^ 16))))) := by
  have hpos : ino ≠ 0 := Nat.one_le_iff_ne_zero.mp hino.1
  have hpar := h.owned.number ⟨f, hf⟩
  have hpos' : parent ≠ 0 := Nat.one_le_iff_ne_zero.mp hpar.1
  have hne : parent ≠ ino := by
    rintro rfl
    rw [hf] at hfree
    cases hfree
  -- the inode is given back
  have hback : ∀ {d' w F'}, Stores g d' w (update F ino F') →
      w.imap = update v.imap ino true →
      Stores g (Fs.freeInode g d' ino) (w.setImap ino false) F ∧
        (w.setImap ino false).imap = v.imap := by
    intro d' w F' hw himap
    have hdone := hw.freeInode hino
    rw [update_idem, ← hfree, update_eq_self] at hdone
    refine ⟨hdone, ?_⟩
    rw [View.setImap_imap, himap, update_idem, ← hvac, update_eq_self]
  have hinode₀ : ((v.setImap ino true).setInode ino (freshDir mode)).inode ino = freshDir mode :=
    update_self ..
  have hzone₀ : ∀ s, ((v.setImap ino true).setInode ino (freshDir mode)).zone ino s = 0 :=
    zone_fresh h.owned.zero (by rw [hinode₀]; rfl)
  rcases hs.dots (update_self ..) hzone₀ hpos (hlt hino) hpos' (hlt hpar) with
    ⟨hfail, hfull, v', himap, hzmap, hs'⟩ | ⟨hok₁, hok₂, v₂, fd, himap, hnew, hspare, hother, hs₂⟩
  · obtain ⟨hdone, himap'⟩ := hback hs' himap
    simp only [Fs.mkdirAt, hfail, Bool.not_false, if_true]
    exact .inl ⟨trivial, _, himap', hdone, .inl ⟨hfull, hzmap⟩⟩
  · rw [update_idem] at hs₂
    have hf₂ : update F ino (some fd) parent = some f := by
      rw [update_of_ne hne, hf]
    have hzone : ∀ s, v₂.zone parent s = v.zone parent s := by
      intro s
      rw [hother ⟨f, by rw [update_of_ne hne, hf]⟩ hne]
      exact zone_setInode_of_ne _ _ hne s
    have hmissing : missing v₂ parent f.nextSlots = missing v parent f.nextSlots := by
      unfold missing
      simp only [hzone]
    change spare v₂ + 1 = spare v at hspare
    simp only [Fs.mkdirAt, hok₁, hok₂, Bool.not_true, Bool.false_eq_true, if_false]
    generalize (Fs.dirAdd g (Fs.dirAdd g (Fs.writeInode g d ino (freshDir mode)).2 ino dot ino).2
      ino dotdot parent).2 = d₂ at hs₂
    cases hok₃ : (Fs.dirAdd g d₂ parent leaf ino).1 with
    | false =>
      obtain ⟨v₃, himap₃, hspent, hs₃, hcrowded⟩ := hs₂.dirAdd_fails hf₂
        (Spent.supply (v := v₂) (S := f.nextSlots)) (.refl hs₂.good.padded)
        (fun s hs t ht ↦ f.nextSlots_path hs ht) hok₃
      obtain ⟨hdone, himap'⟩ := hback hs₃ (himap₃.trans himap)
      simp only [Bool.not_false, if_true]
      refine .inl ⟨trivial, _, himap', hdone, .inr ⟨hcrowded.taken, ?_, ?_⟩⟩
      · have hcount := hspent.count hs₃.good.owned ⟨f, hf₂⟩
        change spare v₃ < spare v
        omega
      · rintro ⟨hmax, hroom⟩
        refine hspent.not_fits hs₃.good.owned ⟨f, hf₂⟩ le_rfl hcrowded.no_zone hcrowded.why
          ⟨hmax, ?_⟩
        change missing v₂ parent f.nextSlots ≤ spare v₂
        omega
    | true =>
      simp only [Bool.not_true, Bool.false_eq_true, if_false]
      refine .inr ⟨trivial, fun hfull ↦ ?_, fun htaken ↦ ?_, fun hdir ↦ ?_⟩
      · rw [spare_of_full hfull] at hspare
        cases hspare
      · obtain ⟨hmax, hroom⟩ := hs₂.dirAdd_fits hf₂ htaken hok₃
        change missing v₂ parent f.nextSlots ≤ spare v₂ at hroom
        exact ⟨hmax, by omega⟩
      obtain ⟨v₃, himap₃, -, -, ⟨f', hadd, -, -, hs₃⟩ | ⟨hc, -⟩⟩ := hs₂.dirAdd hf₂ hdir
        (Padded.supply g _ parent fun _ ↦ True) hs₂.good.padded (fun _ _ _ _ ↦ trivial) hleaf hpos
        (hlt hino)
      · have hf₃ : update (update F ino (some fd)) parent (some f') parent =
            some f' := update_self ..
        obtain ⟨v', himap', -, hw⟩ := hs₃.updateNlinks hf₃ (fun n ↦ (n + 1) % 2 ^ 16)
          fun _ _ ↦ Nat.mod_lt _ (by decide)
        rw [update_idem] at hw
        exact ⟨v', fd, f', himap'.trans (himap₃.trans himap), hnew, hadd, hw⟩
      · exact absurd (hok₃.symm.trans hc) Bool.true_eq_false.mp

end

/-! ## In the tree -/

/-- The last component of a path is entered in a directory. -/
def ParentIsDir (fs : Minixfs) (path : List UInt8) : Prop :=
  ∀ parent leaf f, splitPath fs.sb fs.disk path = some (parent, leaf) → leaf ≠ [] →
    fs.volume parent = some f → f.attr.isDir

section

variable {F : Volume} {parent x : Nat} {f f' fp fx : File} {leaf : List UInt8}

/-- A name that is not found in a directory of the tree is neither `.` nor `..`. -/
theorem Volume.Tree.proper (h : F.Tree) (hp : F.Below parent) (hf : F parent = some f)
    (hdir : f.attr.isDir) (hleaf : IsCString leaf) (hlen : leaf.length ≤ 60)
    (hnew : f.find leaf = none) : Proper dot dotdot leaf := by
  have hline := Volume.line_dir hf hdir
  have hisDir := (Volume.isDir_iff hf).mpr hdir
  have hnot := (File.find_eq_none hleaf).mp hnew
  rw [List.take_of_length_le hlen] at hnot
  constructor
  · rintro rfl
    obtain ⟨e, he⟩ := h.here_line hp hisDir
    rw [hline] at he
    exact hnot _ ⟨e, he⟩
  · rintro rfl
    obtain ⟨e, y, he⟩ := Lib.Tree.has_up h hp hisDir
    rw [hline] at he
    exact hnot _ ⟨e, he⟩

/-- A new file, or a new directory with its two entries, is entered in a directory of the
tree. -/
theorem Volume.Tree.create (h : F.Tree) (hp : F.Below parent) (hf : F parent = some f)
    (hdir : f.attr.isDir) (hx : F x = none) (hleaf : IsCString leaf) (hlen : leaf.length ≤ 60)
    (hnew : f.find leaf = none) (hadd : f.Added leaf x f') (hfp : fp.entry = f'.entry)
    (hfpd : fp.attr.isDir)
    (hfx : ¬fx.attr.isDir ∧ 1 ≤ fx.attr.iNlinks ∨ NewDir fx x parent) :
    Volume.Tree (update (update F x (some fx)) parent (some fp)) := by
  have hne : x ≠ parent := by
    rintro rfl
    rw [hf] at hx
    cases hx
  obtain ⟨e, hblank, hentry⟩ := hadd.entry
  rw [List.take_of_length_le hlen] at hentry
  set F' := update (update F x (some fx)) parent (some fp) with hF'
  have hparent : F' parent = some fp := update_self ..
  have hfile : F' x = some fx := by
    rw [hF', update_of_ne hne, update_self]
  have hother : ∀ {y}, y ≠ x → y ≠ parent → F' y = F y := by
    intro y hyx hyp
    rw [hF', update_of_ne hyp, update_of_ne hyx]
  refine Lib.Tree.join (p := parent) (x := x) (e := e) (k := leaf) h ?_
  constructor
  case below => exact hp
  case isDir => exact (Volume.isDir_iff hf).mpr hdir
  case fresh =>
    rintro ⟨f'', hf''⟩
    rw [hx] at hf''
    cases hf''
  case blank => rw [Volume.line_dir hf hdir, hblank]
  case proper => exact h.proper hp hf hdir hleaf hlen hnew
  case line => rw [Volume.line_dir hparent hfpd, Volume.line_dir hf hdir, hfp, hentry]
  case line_other => exact fun y hyx hyp ↦ (Volume.node_congr (hother hyx hyp)).1
  case line_new =>
    intro e' k y hline
    rcases hfx with ⟨hnot, -⟩ | hnewdir
    · rw [Volume.line_file hfile hnot] at hline
      cases hline
    · obtain ⟨e₁, e₂, -, heq⟩ := hnewdir.entry
      rw [Volume.line_dir hfile hnewdir.isDir, heq, update_apply] at hline
      split at hline
      · cases hline
        exact .inr ⟨rfl, rfl⟩
      · rw [update_apply] at hline
        split at hline
        · cases hline
          exact .inl ⟨rfl, rfl⟩
        · cases hline
  case here_new =>
    intro hd
    rcases hfx with ⟨hnot, -⟩ | hnewdir
    · exact absurd ((Volume.isDir_iff hfile).mp hd) hnot
    · obtain ⟨e₁, e₂, hne', heq⟩ := hnewdir.entry
      refine ⟨e₁, ?_⟩
      rw [Volume.line_dir hfile hnewdir.isDir, heq, update_of_ne hne',
        update_self]
  case up_new =>
    intro hd
    rcases hfx with ⟨hnot, -⟩ | hnewdir
    · exact absurd ((Volume.isDir_iff hfile).mp hd) hnot
    · obtain ⟨e₁, e₂, -, heq⟩ := hnewdir.entry
      refine ⟨e₂, ?_⟩
      rw [Volume.line_dir hfile hnewdir.isDir, heq, update_self]
  case isDir_other =>
    intro y hyx
    by_cases hyp : y = parent
    · subst hyp
      exact ⟨fun _ ↦ (Volume.isDir_iff hf).mpr hdir, fun _ ↦ (Volume.isDir_iff hparent).mpr hfpd⟩
    · exact (Volume.node_congr (hother hyx hyp)).2.1
  case live =>
    intro y hy
    by_cases hyp : y = parent
    · subst hyp
      exact ⟨fp, hparent⟩
    · by_cases hyx : y = x
      · subst hyx
        exact ⟨fx, hfile⟩
      · exact (Volume.node_congr (hother hyx hyp)).2.2.1.mpr (hy.resolve_right hyx)
  case links =>
    intro y hyx hyd
    by_cases hyp : y = parent
    · subst hyp
      exact absurd ((Volume.isDir_iff hf).mpr hdir) hyd
    · exact (Volume.node_congr (hother hyx hyp)).2.2.2.ge
  case links_new =>
    rw [Volume.links_eq hfile]
    rcases hfx with ⟨-, hle⟩ | hnewdir
    · exact hle
    · rw [hnewdir.nlinks]
      decide

end

section

variable {fs : Minixfs} {path : List UInt8} {mode : Nat}

/-- The volume after an inode has been taken into use. -/
theorem Sound.of_created (h : Sound fs) {d' : Disk} {v' : View} {ino parent : Nat}
    {fx fp : File} (hino : v'.imap = update fs.view.imap ino true)
    (hparent : fs.volume.Live parent)
    (hs : Stores fs.sb d' v'
      (update (update fs.volume ino (some fx)) parent (some fp))) :
    Sound { fs with disk := d' } ∧ ({ fs with disk := d' } : Minixfs).view = v' ∧
      ({ fs with disk := d' } : Minixfs).volume =
        update (update fs.volume ino (some fx)) parent (some fp) := by
  have hexact : ∀ y, IsIno fs.sb y → v'.imap y = true → Volume.Live
      (update (update fs.volume ino (some fx)) parent (some fp)) y := by
    intro y hy hset
    by_cases hyp : y = parent
    · subst hyp
      exact ⟨fp, update_self ..⟩
    · by_cases hyx : y = ino
      · subst hyx
        exact ⟨fx, by rw [update_of_ne hyp, update_self]⟩
      · rw [hino, update_of_ne hyx] at hset
        obtain ⟨f, hf⟩ := Minixfs.live_iff.mpr ⟨hy, hset⟩
        exact ⟨f, by rw [update_of_ne hyp, update_of_ne hyx, hf]⟩
  exact hs.sound_disk h.width hexact

theorem freshFile_not_isDir (mode : Nat) : ¬(File.empty (freshFile mode)).attr.isDir := by
  refine Inode.isReg.not_isDir ?_
  change (0o100000 ||| (mode &&& 0o7777)) &&& 0o170000 = 0o100000
  rw [Nat.and_or_distrib_right, Nat.and_assoc]
  simp

/-- The last component of the path is to be looked up in the file `f`. -/
structure Target (fs : Minixfs) (path : List UInt8) (parent : Nat) (leaf : List UInt8) (f : File) :
    Prop where
  split : splitPath fs.sb fs.disk path = some (parent, leaf)
  ne : leaf ≠ []
  below : fs.volume.Below parent
  cstring : IsCString leaf
  length : leaf.length ≤ 60
  file : fs.volume parent = some f

/-- There is a last component, or the calls fail at once. -/
theorem WellFormed.target (h : WellFormed fs) (hpath : IsCString path) :
    (∃ parent leaf f, Target fs path parent leaf f) ∨
      ∀ mode, Fs.minixfsCreat fs path mode = (-1, fs) ∧
        Fs.minixfsMkdir fs path mode = (-1, fs) := by
  unfold Fs.minixfsCreat Fs.minixfsMkdir
  cases hsplit : Fs.splitPath fs.sb fs.disk path with
  | none => exact .inr fun _ ↦ ⟨rfl, rfl⟩
  | some pl =>
    obtain ⟨parent, leaf⟩ := pl
    by_cases hnil : leaf = []
    · exact .inr fun _ ↦ ⟨if_pos hnil, if_pos hnil⟩
    · obtain ⟨hp, hleaf, hlen⟩ := h.splitPath hpath hsplit
      obtain ⟨f, hf⟩ := h.tree.live hp
      exact .inl ⟨parent, leaf, f, hsplit, hnil, hp, hleaf, hlen, hf⟩

section

variable {parent : Nat} {leaf : List UInt8} {f : File}

theorem Target.creat (ht : Target fs path parent leaf f) (mode : Nat) :
    minixfsCreat fs path mode = ((creatIn fs.sb fs.disk parent leaf mode).1,
      { fs with disk := (creatIn fs.sb fs.disk parent leaf mode).2 }) := by
  simp only [minixfsCreat, ht.split, if_neg ht.ne]

theorem Target.creat_found (ht : Target fs path parent leaf f) {ino : Nat}
    (hfound : dirLookup fs.sb fs.disk parent leaf = some ino) (mode : Nat) :
    minixfsCreat fs path mode = (sint32 ino, fs) := by
  simp only [ht.creat, creatIn, hfound]

theorem Target.mkdir_found (ht : Target fs path parent leaf f) {ino : Nat}
    (hfound : dirLookup fs.sb fs.disk parent leaf = some ino) (mode : Nat) :
    minixfsMkdir fs path mode = (-1, fs) := by
  simp only [minixfsMkdir, ht.split, if_neg ht.ne, hfound]

/-- What `minixfs_creat` does with a name that is not found. -/
theorem WellFormed.creat_new (h : WellFormed fs) (ht : Target fs path parent leaf f)
    (hnone : Fs.dirLookup fs.sb fs.disk parent leaf = none) (mode : Nat) :
    (∃ v', Spent fs.sb parent fs.view f.nextSlots v' ∧
        (Full fs.view.imap ∧ v' = fs.view ∨ ¬Full fs.view.imap ∧ Crowded f parent v') ∧
        v'.imap = fs.view.imap ∧
        (Fs.minixfsCreat fs path mode).1 = -1 ∧ Sound (Fs.minixfsCreat fs path mode).2 ∧
        (Fs.minixfsCreat fs path mode).2.view = v' ∧
        (Fs.minixfsCreat fs path mode).2.volume = fs.volume) ∨
      ∃ ino, IsIno fs.sb ino ∧ fs.view.imap ino = false ∧ fs.volume ino = none ∧
        ((∀ e < f.cap, f.ino e ≠ 0) →
          Fits fs.view parent (nblocks f.attr) (nblocks f.attr + 1)) ∧
        (Fs.minixfsCreat fs path mode).1 = sint32 ino ∧
        (f.attr.isDir → ∃ f', f.Added leaf ino f' ∧ Sound (Fs.minixfsCreat fs path mode).2 ∧
          (Fs.minixfsCreat fs path mode).2.view.imap = update fs.view.imap ino true ∧
          (Fs.minixfsCreat fs path mode).2.volume = update
            (update fs.volume ino (some (File.empty (freshFile mode)))) parent
            (some f')) := by
  rw [ht.creat]
  rcases h.sound.stores.creatIn ht.file (fun hino ↦ (h.sound.ino_lt hino).trans (by decide))
    ht.cstring hnone mode with
    ⟨v', hspent, hwhy, himap, hres, hs⟩ | ⟨ino, hino, hvac, hfree, hfits, hres, hmade⟩
  · obtain ⟨hsound, hview, hvolume⟩ := h.sound.of_stores hs himap
    exact .inl ⟨v', hspent, hwhy, himap, hres, hsound, hview, hvolume⟩
  · refine .inr ⟨ino, hino, hvac, hfree, hfits, hres, fun hdir ↦ ?_⟩
    obtain ⟨v', f', himap, hadd, hs⟩ := hmade hdir
    obtain ⟨hsound, hview, hvolume⟩ := h.sound.of_created himap ⟨f, ht.file⟩ hs
    exact ⟨f', hadd, hsound, by rw [hview, himap], hvolume⟩

/-- What `minixfs_mkdir` does with a name that is not found. -/
theorem WellFormed.mkdir_new (h : WellFormed fs) (ht : Target fs path parent leaf f)
    (hnone : Fs.dirLookup fs.sb fs.disk parent leaf = none) (mode : Nat) :
    ((Fs.minixfsMkdir fs path mode).1 = -1 ∧ Sound (Fs.minixfsMkdir fs path mode).2 ∧
        (Fs.minixfsMkdir fs path mode).2.view.imap = fs.view.imap ∧
        (Fs.minixfsMkdir fs path mode).2.volume = fs.volume ∧
        ((Full fs.view.imap ∨ Full fs.view.zmap) ∧
            (Fs.minixfsMkdir fs path mode).2.view.zmap = fs.view.zmap ∨
          ¬Full fs.view.imap ∧ (∀ e < f.cap, f.ino e ≠ 0) ∧
            spare (Fs.minixfsMkdir fs path mode).2.view < spare fs.view ∧
            ¬(nblocks f.attr < maxBlocks ∧
              missing fs.view parent f.nextSlots < spare fs.view))) ∨
      (Fs.minixfsMkdir fs path mode).1 = 0 ∧ ¬Full fs.view.zmap ∧
        ((∀ e < f.cap, f.ino e ≠ 0) →
          nblocks f.attr < maxBlocks ∧ missing fs.view parent f.nextSlots < spare fs.view) ∧
        ∃ ino, IsIno fs.sb ino ∧ fs.view.imap ino = false ∧ fs.volume ino = none ∧
          (f.attr.isDir → ∃ fd f', NewDir fd ino parent ∧ f.Added leaf ino f' ∧
            Sound (Fs.minixfsMkdir fs path mode).2 ∧
            (Fs.minixfsMkdir fs path mode).2.view.imap = update fs.view.imap ino true ∧
            (Fs.minixfsMkdir fs path mode).2.volume = update
              (update fs.volume ino (some fd)) parent
              (some (f'.setNlinks ((f'.attr.iNlinks + 1) % 2 ^ 16)))) := by
  rcases h.sound.stores.allocInode (freshDir_wf mode) rfl rfl with
    ⟨hfull, heq⟩ | ⟨ino, hino, hvac, hfree, hres, hs⟩
  · have hcall : Fs.minixfsMkdir fs path mode = (-1, fs) := by
      simp only [Fs.minixfsMkdir, ht.split, if_neg ht.ne, hnone, heq, if_true]
    rw [hcall]
    exact .inl ⟨rfl, h.sound, rfl, rfl, .inl ⟨.inl hfull, rfl⟩⟩
  · have hpos : ino ≠ 0 := Nat.one_le_iff_ne_zero.mp hino.1
    have hcall : Fs.minixfsMkdir fs path mode =
        ((mkdirAt fs.sb (Fs.allocInode fs.sb fs.disk).2 parent leaf mode ino).1,
          { fs with
            disk := (mkdirAt fs.sb (Fs.allocInode fs.sb fs.disk).2 parent leaf mode ino).2 }) := by
      simp only [Fs.minixfsMkdir, ht.split, if_neg ht.ne, hnone, hres, if_neg hpos]
    have hvacant : ¬Full fs.view.imap := fun hfull ↦
      Bool.false_ne_true (hvac.1.symm.trans (hfull ino))
    rw [hcall]
    rcases Stores.mkdirAt h.sound.good ht.file hs hino hvac.1 hfree
      (fun hino ↦ (h.sound.ino_lt hino).trans (by decide)) ht.cstring with
      ⟨hfail, v', himap, hs', hwhy⟩ | ⟨hok, hzmap, hfits, hmade⟩
    · obtain ⟨hsound, hview, hvolume⟩ := h.sound.of_stores hs' himap
      refine .inl ⟨hfail, hsound, by rw [hview, himap], hvolume, ?_⟩
      rw [hview]
      exact hwhy.imp (fun hz ↦ ⟨.inr hz.1, hz.2⟩) fun hleak ↦ ⟨hvacant, hleak⟩
    · refine .inr ⟨hok, hzmap, hfits, ino, hino, hvac.1, hfree, fun hdir ↦ ?_⟩
      obtain ⟨v', fd, f', himap, hnew, hadd, hs'⟩ := hmade hdir
      obtain ⟨hsound, hview, hvolume⟩ := h.sound.of_created himap ⟨f, ht.file⟩ hs'
      exact ⟨fd, f', hnew, hadd, hsound, by rw [hview, himap], hvolume⟩

end

/-- `minixfs_creat` in a directory keeps the file system well formed. -/
theorem WellFormed.minixfsCreat (h : WellFormed fs) (hpath : IsCString path)
    (hdir : ParentIsDir fs path) (mode : Nat) : WellFormed (minixfsCreat fs path mode).2 := by
  rcases h.target hpath with ⟨parent, leaf, f, ht⟩ | hfail
  · have hd := hdir parent leaf f ht.split ht.ne ht.file
    cases hfound : Fs.dirLookup fs.sb fs.disk parent leaf with
    | some existing =>
      rw [ht.creat_found hfound]
      exact h
    | none =>
      rcases h.creat_new ht hfound mode with
        ⟨-, -, -, -, -, hsound, -, hvolume⟩ | ⟨ino, -, -, hfree, -, -, hmade⟩
      · exact ⟨hsound, by rw [hvolume]; exact h.tree⟩
      · obtain ⟨f', hadd, hsound, -, hvolume⟩ := hmade hd
        refine ⟨hsound, ?_⟩
        rw [hvolume]
        rw [h.sound.stores.dirLookup ht.file, if_pos hd] at hfound
        obtain ⟨size, hattr⟩ := hadd.attr
        exact h.tree.create ht.below ht.file hd hfree ht.cstring ht.length hfound hadd rfl
          (by rw [hattr]; exact hd) (.inl ⟨freshFile_not_isDir mode, le_rfl⟩)
  · rw [(hfail mode).1]
    exact h

/-- `minixfs_mkdir` in a directory keeps the file system well formed. -/
theorem WellFormed.minixfsMkdir (h : WellFormed fs) (hpath : IsCString path)
    (hdir : ParentIsDir fs path) (mode : Nat) : WellFormed (minixfsMkdir fs path mode).2 := by
  rcases h.target hpath with ⟨parent, leaf, f, ht⟩ | hfail
  · have hd := hdir parent leaf f ht.split ht.ne ht.file
    cases hfound : Fs.dirLookup fs.sb fs.disk parent leaf with
    | some existing =>
      rw [ht.mkdir_found hfound]
      exact h
    | none =>
      rcases h.mkdir_new ht hfound mode with
        ⟨-, hsound, -, hvolume, -⟩ | ⟨-, -, -, ino, -, -, hfree, hmade⟩
      · exact ⟨hsound, by rw [hvolume]; exact h.tree⟩
      · obtain ⟨fd, f', hnew, hadd, hsound, -, hvolume⟩ := hmade hd
        refine ⟨hsound, ?_⟩
        rw [hvolume]
        rw [h.sound.stores.dirLookup ht.file, if_pos hd] at hfound
        obtain ⟨size, hattr⟩ := hadd.attr
        refine h.tree.create ht.below ht.file hd hfree ht.cstring ht.length hfound hadd rfl ?_
          (.inr hnew)
        change ({ f'.attr with iNlinks := _ } : Inode).isDir
        rw [hattr]
        exact hd
  · rw [(hfail mode).2]
    exact h

end

end FentoOS.Fs
