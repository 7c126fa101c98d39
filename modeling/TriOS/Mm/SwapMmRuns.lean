import TriOS.Library.Coherence
import TriOS.Mm.SwapMm

/-!
# SwapMmRuns — swapping is not seen

A page of the address space has its bytes in the frame of its entry or in the slot of its entry. Evicting a page moves
the bytes from the one to the other, a page fault moves them back, and nothing else changes them but the stores of the
processor. So every run of loads and stores is one of a plain memory, for every swap manager that evicts the pages that
were recorded with it.
-/

namespace TriOS
namespace SwapMm

open Outcome Coherence Transition

variable {μ : Type} {pmm : PageAllocator} {sm : SwapManager μ} {Rep : μ → List Nat → Prop} {s t u : Sys μ}
  {ps ps' : List Nat} {f page v w la i j : Nat}

/-! ## The invariant -/

/-- A swap manager that keeps a list of pages: a new page is recorded in it, and a victim is one of the list, which
it then leaves. -/
structure Lawful (sm : SwapManager μ) (Rep : μ → List Nat → Prop) : Prop where
  map : ∀ m ps p, Rep m ps → p ∉ ps → ∃ m' ps', sm.mapSwappable m p = done m' ∧ Rep m' ps' ∧ ps'.Perm (p :: ps)
  victim : ∀ m ps, Rep m ps → ps ≠ [] → ∃ p m' ps',
    Returns (fun bound => sm.swapOutVictim bound m) (some p, m') ∧ Rep m' ps' ∧ ps.Perm (p :: ps')

/-- What a frame of the page table is for. -/
inductive TableSlot where
  | dir (i : Nat)
  | table (j : Nat)
  deriving DecidableEq

/-- The frame of a directory or a table. -/
def Sys.frameOf (s : Sys μ) : TableSlot → Option Nat
  | TableSlot.dir i => s.dirs i
  | TableSlot.table j => s.tables j

/-- The directory and the table of a page are there. -/
def Sys.Walks (s : Sys μ) (v : Nat) : Prop := s.dirs (v / nPteEntry ^ 2) ≠ none ∧ s.tables (v / nPteEntry) ≠ none

/-- The bytes of a page that has been used. -/
def Sys.content (s : Sys μ) (v : Nat) : Option (Nat → UInt8) :=
  if s.pte v = 0 then none
  else some (((s.pte v).frame.map s.mem).getD (s.swap (s.pte v).slot))

/-- The areas can be written, and every page of them has a slot of the swap device. -/
structure Sys.Config (s : Sys μ) : Prop where
  ok : s.swapInitOk = true
  slots : s.maxSwapOffset < 2 ^ 24
  write : ∀ vma ∈ s.mmap, vma.flags &&& vmWrite ≠ 0
  areas : ∀ vma ∈ s.mmap, vma.stop ≤ (s.maxSwapOffset - 1) * pgSize

/-- The invariant, with the pages that are recorded: each of them is mapped by the entry of its address, and by no
other; every entry is zero, that of a recorded page, or that of the slot of its page; and a frame is free, or of the
page table, or recorded. -/
structure Inv (pmm : PageAllocator) (Rep : μ → List Nat → Prop) (s : Sys μ) (ps : List Nat) : Prop where
  config : s.Config
  rep : Rep s.priv ps
  nodup : ps.Nodup
  pool : ∀ f ∈ ps, f ∈ pmm.pool ∧ f ∉ s.free
  mapped : ∀ f ∈ ps, ∃ v, (s.pte v).frame = some f
  present : ∀ v f, (s.pte v).frame = some f → f ∈ ps ∧ s.praVaddr f = v * pgSize ∧ s.ref f = 1
  perm : ∀ v, (s.pte v).Valid → s.pte v &&& pteR ≠ 0 ∧ s.pte v &&& pteW ≠ 0
  swapped : ∀ v, s.pte v ≠ 0 → ¬ (s.pte v).Valid → s.pte v = swapEntry v
  bound : ∀ v, s.pte v ≠ 0 → v + 1 < s.maxSwapOffset
  walks : ∀ v, s.pte v ≠ 0 → s.Walks v
  free : ∀ f ∈ s.free, f ∈ pmm.pool ∧ s.ref f = 0
  dirs : ∀ j, s.tables j ≠ none → s.dirs (j / nPteEntry) ≠ none
  frames : ∀ a f, s.frameOf a = some f → f ∉ s.free ∧ f ∉ ps
  single : ∀ a b f, s.frameOf a = some f → s.frameOf b = some f → a = b

/-- A frame that has just been handed out. -/
structure Fresh (pmm : PageAllocator) (s : Sys μ) (ps : List Nat) (f : Nat) : Prop where
  pool : f ∈ pmm.pool
  free : f ∉ s.free
  recorded : f ∉ ps
  ref : s.ref f = 0
  table : ∀ a, s.frameOf a ≠ some f

/-- What the requests for frames leave as it is: the bytes of every page, the entries that map nothing, and the tables
that are there. -/
structure Still (s t : Sys μ) : Prop where
  config : t.swapInitOk = s.swapInitOk ∧ t.maxSwapOffset = s.maxSwapOffset ∧ t.mmap = s.mmap
  content : ∀ v, t.content v = s.content v
  absent : ∀ v, ¬ (s.pte v).Valid → t.pte v = s.pte v
  tables : ∀ a f, s.frameOf a = some f → t.frameOf a = some f

theorem Still.refl (s : Sys μ) : Still s s := ⟨⟨rfl, rfl, rfl⟩, fun _ => rfl, fun _ _ => rfl, fun _ _ h => h⟩

theorem Still.trans (h : Still s t) (h' : Still t u) : Still s u := by
  obtain ⟨hok, hmax, hmmap⟩ := h.config
  obtain ⟨hok', hmax', hmmap'⟩ := h'.config
  refine ⟨⟨hok'.trans hok, hmax'.trans hmax, hmmap'.trans hmmap⟩, fun v => (h'.content v).trans (h.content v),
    fun v hv => ?_, fun a f ha => h'.tables a f (h.tables a f ha)⟩
  have hsame := h.absent v hv
  rw [h'.absent v (by rw [hsame]; exact hv), hsame]

theorem Still.walks (h : Still s t) (hw : s.Walks v) : t.Walks v := by
  obtain ⟨d, hd⟩ := Option.ne_none_iff_exists'.1 hw.1
  obtain ⟨p, hp⟩ := Option.ne_none_iff_exists'.1 hw.2
  have hd' : t.dirs (v / nPteEntry ^ 2) = some d := h.tables (TableSlot.dir _) d hd
  have hp' : t.tables (v / nPteEntry) = some p := h.tables (TableSlot.table _) p hp
  exact ⟨by rw [hd']; exact Option.some_ne_none d, by rw [hp']; exact Option.some_ne_none p⟩

theorem Sys.Config.still (h : s.Config) (hs : Still s t) : t.Config := by
  obtain ⟨hok, hmax, hmmap⟩ := hs.config
  refine ⟨hok.trans h.ok, ?_, ?_, ?_⟩
  · rw [hmax]
    exact h.slots
  · rw [hmmap]
    exact h.write
  · rw [hmax, hmmap]
    exact h.areas

/-! ## The bytes of a page -/

theorem content_zero (h : s.pte v = 0) : s.content v = none := if_pos h

theorem content_frame (h : (s.pte v).frame = some f) : s.content v = some (s.mem f) := by
  have hne : s.pte v ≠ 0 := by
    intro hzero
    rw [hzero, Pte.frame_zero] at h
    cases h
  unfold Sys.content
  rw [if_neg hne, h]
  rfl

theorem content_slot (hne : s.pte v ≠ 0) (h : ¬ (s.pte v).Valid) : s.content v = some (s.swap (s.pte v).slot) := by
  unfold Sys.content
  rw [if_neg hne, Pte.frame_eq_none.2 h]
  rfl

theorem content_congr (hpte : t.pte v = s.pte v) (hmem : ∀ f, (s.pte v).frame = some f → t.mem f = s.mem f)
    (hswap : s.pte v ≠ 0 → ¬ (s.pte v).Valid → t.swap (s.pte v).slot = s.swap (s.pte v).slot) :
    t.content v = s.content v := by
  by_cases hzero : s.pte v = 0
  · rw [content_zero hzero, content_zero (hpte.trans hzero)]
  cases hf : (s.pte v).frame with
  | none =>
      have hnot := Pte.frame_eq_none.1 hf
      rw [content_slot hzero hnot, content_slot (by rw [hpte]; exact hzero) (by rw [hpte]; exact hnot), hpte,
        hswap hzero hnot]
  | some f => rw [content_frame hf, content_frame (by rw [hpte]; exact hf), hmem f hf]

/-- A frame maps one page only. -/
theorem Inv.frame_unique (h : Inv pmm Rep s ps) (hv : (s.pte v).frame = some f) (hw : (s.pte w).frame = some f) :
    v = w := by
  have hv' := (h.present v f hv).2.1
  have hw' := (h.present w f hw).2.1
  have hmul : v * pgSize = w * pgSize := hv'.symm.trans hw'
  exact Nat.eq_of_mul_eq_mul_right (by decide) hmul

/-! ## The page table -/

/-- Where the directory and the table are there, `get_pte` asks for nothing. -/
theorem getPteWith_walks (alloc : Sys μ → Outcome (Option Nat × Sys μ)) (h : s.Walks (vpn la)) :
    getPteWith alloc s la = done (some (vpn la), s) := by
  obtain ⟨d, hd⟩ := Option.ne_none_iff_exists'.1 h.1
  obtain ⟨p, hp⟩ := Option.ne_none_iff_exists'.1 h.2
  have hfirst : ensureTable alloc s (s.dirs (vpn la / nPteEntry ^ 2))
      (fun s page => s.newDir (vpn la / nPteEntry ^ 2) page) = done (true, s) := by
    rw [hd]
    rfl
  have hsecond : ensureTable alloc s (s.tables (vpn la / nPteEntry))
      (fun s page => s.newTable (vpn la / nPteEntry) page) = done (true, s) := by
    rw [hp]
    rfl
  unfold getPteWith
  simp only [hfirst, bind_done, Bool.true_eq_false, if_false, hsecond, pure_eq_done]

theorem findPte_walks (h : s.Walks (vpn la)) : findPte s la = done (some (vpn la), s) := getPteWith_walks _ h

/-- The page of the address of a page. -/
theorem vpn_mul (hv : v < nPteEntry ^ 3) : vpn (v * pgSize) = v := by
  unfold vpn
  rw [Nat.mul_div_cancel _ (by decide), Nat.mod_eq_of_lt hv]

theorem Inv.vpn_lt (h : Inv pmm Rep s ps) (hv : s.pte v ≠ 0) : v < nPteEntry ^ 3 := by
  have hbound := h.bound v hv
  have hslots := h.config.slots
  have hnum : nPteEntry ^ 3 = 2 ^ 27 := by decide
  omega

/-- The frame of a new directory or table is of the page table alone. -/
theorem Inv.install (h : Inv pmm Rep s ps) (hf : Fresh pmm s ps f) {a : TableSlot} (hpte : t.pte = s.pte)
    (hpriv : t.priv = s.priv) (hconfig : t.swapInitOk = s.swapInitOk ∧ t.maxSwapOffset = s.maxSwapOffset ∧ t.mmap = s.mmap)
    (hfree : t.free = s.free) (hva : t.praVaddr = s.praVaddr) (href : ∀ g, g ≠ f → t.ref g = s.ref g)
    (hframe : ∀ b, t.frameOf b = if b = a then some f else s.frameOf b) (habsent : s.frameOf a = none)
    (hdir : ∀ j, a = TableSlot.table j → s.dirs (j / nPteEntry) ≠ none) : Inv pmm Rep t ps := by
  have hkept : ∀ b g, s.frameOf b = some g → t.frameOf b = some g := by
    intro b g hb
    have hne : b ≠ a := by
      rintro rfl
      rw [habsent] at hb
      cases hb
    rw [hframe, if_neg hne]
    exact hb
  have hne_frame : ∀ v g, (s.pte v).frame = some g → g ≠ f := fun v g hg heq =>
    hf.recorded (heq ▸ (h.present v g hg).1)
  have hsome : ∀ b, s.frameOf b ≠ none → t.frameOf b ≠ none := by
    intro b hb
    obtain ⟨g, hg⟩ := Option.ne_none_iff_exists'.1 hb
    rw [hkept b g hg]
    exact Option.some_ne_none g
  refine ⟨⟨?_, ?_, ?_, ?_⟩, hpriv ▸ h.rep, h.nodup, fun g hg => ?_, fun g hg => ?_, fun v g hg => ?_, fun v hv => ?_,
    fun v hv hnot => ?_, fun v hv => ?_, fun v hv => ?_, fun g hg => ?_, fun j hj => ?_, fun b g hb => ?_,
    fun b c g hb hc => ?_⟩
  · rw [hconfig.1]
    exact h.config.ok
  · rw [hconfig.2.1]
    exact h.config.slots
  · rw [hconfig.2.2]
    exact h.config.write
  · rw [hconfig.2.1, hconfig.2.2]
    exact h.config.areas
  · rw [hfree]
    exact h.pool g hg
  · rw [hpte]
    exact h.mapped g hg
  · rw [hpte] at hg
    rw [hva, href g (hne_frame v g hg)]
    exact h.present v g hg
  · rw [hpte] at hv ⊢
    exact h.perm v hv
  · rw [hpte] at hv hnot ⊢
    exact h.swapped v hv hnot
  · rw [hpte] at hv
    rw [hconfig.2.1]
    exact h.bound v hv
  · rw [hpte] at hv
    exact ⟨hsome (TableSlot.dir _) (h.walks v hv).1, hsome (TableSlot.table _) (h.walks v hv).2⟩
  · rw [hfree] at hg
    have hne : g ≠ f := fun heq => hf.free (heq ▸ hg)
    rw [href g hne]
    exact h.free g hg
  · have hold : t.frameOf (TableSlot.table j) ≠ none := hj
    have hdirs : s.dirs (j / nPteEntry) ≠ none := by
      by_cases heq : TableSlot.table j = a
      · exact hdir j heq.symm
      · rw [hframe, if_neg heq] at hold
        exact h.dirs j hold
    exact hsome (TableSlot.dir _) hdirs
  · rw [hframe] at hb
    rw [hfree]
    split at hb
    · rw [← Option.some.inj hb]
      exact ⟨hf.free, hf.recorded⟩
    · exact h.frames b g hb
  · rw [hframe] at hb hc
    split at hb
    · next heq =>
        split at hc
        · next heq' => rw [heq, heq']
        · exact absurd (Option.some.inj hb ▸ hc) (hf.table c)
    · split at hc
      · exact absurd (Option.some.inj hc ▸ hb) (hf.table b)
      · exact h.single b c g hb hc

theorem Inv.newDir (h : Inv pmm Rep s ps) (hf : Fresh pmm s ps f) (hnone : s.dirs i = none) :
    Inv pmm Rep (s.newDir i f) ps ∧ Still s (s.newDir i f) ∧ (s.newDir i f).free = s.free ∧
      ∀ b, (s.newDir i f).frameOf b = if b = TableSlot.dir i then some f else s.frameOf b := by
  -- there were no tables below the new directory
  have htables : (s.newDir i f).tables = s.tables := by
    funext j
    change (if j / nPteEntry = i then none else s.tables j) = s.tables j
    split
    · next hj =>
        by_contra hne
        exact h.dirs j (fun heq => hne heq.symm) (hj ▸ hnone)
    · rfl
  have hframe : ∀ b, (s.newDir i f).frameOf b = if b = TableSlot.dir i then some f else s.frameOf b := by
    intro b
    cases b with
    | dir k =>
        change Function.update s.dirs i (some f) k = _
        by_cases hk : k = i
        · rw [hk, Function.update_self, if_pos rfl]
        · rw [Function.update_of_ne hk, if_neg fun heq => hk (TableSlot.dir.inj heq)]
          rfl
    | table j =>
        rw [if_neg (fun heq => TableSlot.noConfusion heq)]
        exact congrFun htables j
  have hinv : Inv pmm Rep (s.newDir i f) ps := h.install hf rfl rfl ⟨rfl, rfl, rfl⟩ rfl rfl
    (fun g hg => Function.update_of_ne hg _ _) hframe hnone fun j heq => TableSlot.noConfusion heq
  refine ⟨hinv, ⟨⟨rfl, rfl, rfl⟩, fun v => rfl, fun v _ => rfl, fun a g ha => ?_⟩, rfl, hframe⟩
  rw [hframe]
  split
  · next heq =>
      rw [heq] at ha
      exact absurd (hnone.symm.trans ha) (Option.some_ne_none g).symm
  · exact ha

theorem Inv.newTable (h : Inv pmm Rep s ps) (hf : Fresh pmm s ps f) (hnone : s.tables j = none)
    (hdir : s.dirs (j / nPteEntry) ≠ none) :
    Inv pmm Rep (s.newTable j f) ps ∧ Still s (s.newTable j f) ∧ (s.newTable j f).free = s.free ∧
      ∀ b, (s.newTable j f).frameOf b = if b = TableSlot.table j then some f else s.frameOf b := by
  -- the entries of the new table were zero before
  have hpte : (s.newTable j f).pte = s.pte := by
    funext v
    change (if v / nPteEntry = j then 0 else s.pte v) = s.pte v
    split
    · next hv =>
        by_contra hne
        exact (h.walks v fun heq => hne heq.symm).2 (hv ▸ hnone)
    · rfl
  have hframe : ∀ b, (s.newTable j f).frameOf b = if b = TableSlot.table j then some f else s.frameOf b := by
    intro b
    cases b with
    | dir k =>
        rw [if_neg (fun heq => TableSlot.noConfusion heq)]
        rfl
    | table k =>
        change Function.update s.tables j (some f) k = _
        by_cases hk : k = j
        · rw [hk, Function.update_self, if_pos rfl]
        · rw [Function.update_of_ne hk, if_neg fun heq => hk (TableSlot.table.inj heq)]
          rfl
  have hinv : Inv pmm Rep (s.newTable j f) ps := h.install hf hpte rfl ⟨rfl, rfl, rfl⟩ rfl rfl
    (fun g hg => Function.update_of_ne hg _ _) hframe hnone fun k heq => TableSlot.table.inj heq ▸ hdir
  refine ⟨hinv, ⟨⟨rfl, rfl, rfl⟩, fun v => ?_, fun v _ => congrFun hpte v, fun a g ha => ?_⟩, rfl,
    hframe⟩
  · exact content_congr (congrFun hpte v) (fun _ _ => rfl) fun _ _ => rfl
  · rw [hframe]
    split
    · next heq =>
        rw [heq] at ha
        exact absurd (hnone.symm.trans ha) (Option.some_ne_none g).symm
    · exact ha

/-! ## Eviction -/

/-- The state after the page `v` has been evicted from the frame `f`. -/
def Sys.evicted (s : Sys μ) (priv : μ) (v f : Nat) : Sys μ :=
  { s with
    priv := priv
    swap := Function.update s.swap (v + 1) (s.mem f)
    pte := Function.update s.pte v (swapEntry v)
    ref := Function.update s.ref f 0
    free := insert f s.free }

theorem evicted_pte_self (s : Sys μ) (priv : μ) (v f : Nat) : (s.evicted priv v f).pte v = swapEntry v :=
  Function.update_self _ _ _

theorem evicted_pte_ne (s : Sys μ) (priv : μ) (f : Nat) (h : w ≠ v) : (s.evicted priv v f).pte w = s.pte w :=
  Function.update_of_ne h _ _

/-- The numbers of the pages are small enough for an entry. -/
theorem Inv.slot_lt (h : Inv pmm Rep s ps) (hv : s.pte v ≠ 0) : v + 1 < 2 ^ 24 := (h.bound v hv).trans h.config.slots

theorem Pte.ne_zero_of_frame {pte : Pte} (h : pte.frame = some f) : pte ≠ 0 := by
  intro hzero
  rw [hzero, Pte.frame_zero] at h
  cases h

theorem Inv.evicted (h : Inv pmm Rep s ps) {priv : μ} (hf : (s.pte v).frame = some f) (hrep : Rep priv ps')
    (hperm : ps.Perm (f :: ps')) : Inv pmm Rep (s.evicted priv v f) ps' := by
  have hne := Pte.ne_zero_of_frame hf
  have hswapped := swapped_swapEntry (h.slot_lt hne)
  obtain ⟨hfps, -, -⟩ := h.present v f hf
  obtain ⟨hnotin, hnodup⟩ := List.nodup_cons.1 (hperm.nodup_iff.1 h.nodup)
  have hsub : ∀ g ∈ ps', g ∈ ps ∧ g ≠ f := fun g hg =>
    ⟨hperm.mem_iff.2 (List.mem_cons_of_mem f hg), fun heq => hnotin (heq ▸ hg)⟩
  have hother : ∀ w g, ((s.evicted priv v f).pte w).frame = some g → w ≠ v := by
    rintro w g hg rfl
    rw [evicted_pte_self, Pte.frame_eq_none.2 hswapped.2] at hg
    cases hg
  refine ⟨⟨h.config.ok, h.config.slots, h.config.write, h.config.areas⟩, hrep, hnodup, fun g hg => ?_, fun g hg => ?_,
    fun w g hg => ?_, fun w hw => ?_, fun w hw hnot => ?_, fun w hw => ?_, fun w hw => ?_, fun g hg => ?_, h.dirs,
    fun a g ha => ?_, h.single⟩
  · obtain ⟨hg, hgf⟩ := hsub g hg
    refine ⟨(h.pool g hg).1, fun hin => ?_⟩
    rcases Finset.mem_insert.1 hin with heq | hin
    · exact hgf heq
    · exact (h.pool g hg).2 hin
  · obtain ⟨hg, hgf⟩ := hsub g hg
    obtain ⟨w, hw⟩ := h.mapped g hg
    have hwv : w ≠ v := by
      rintro rfl
      exact hgf (Option.some.inj (hw.symm.trans hf))
    exact ⟨w, by rw [evicted_pte_ne s priv f hwv]; exact hw⟩
  · have hwv := hother w g hg
    rw [evicted_pte_ne s priv f hwv] at hg
    obtain ⟨hgps, hva, href⟩ := h.present w g hg
    have hgf : g ≠ f := by
      rintro rfl
      exact hwv (h.frame_unique hg hf)
    refine ⟨(List.mem_cons.1 (hperm.mem_iff.1 hgps)).resolve_left hgf, hva, ?_⟩
    exact (Function.update_of_ne hgf _ _).trans href
  · have hwv : w ≠ v := by
      rintro rfl
      rw [evicted_pte_self] at hw
      exact hswapped.2 hw
    rw [evicted_pte_ne s priv f hwv] at hw ⊢
    exact h.perm w hw
  · by_cases hwv : w = v
    · rw [hwv, evicted_pte_self]
    · rw [evicted_pte_ne s priv f hwv] at hw hnot ⊢
      exact h.swapped w hw hnot
  · by_cases hwv : w = v
    · rw [hwv]
      exact h.bound v hne
    · rw [evicted_pte_ne s priv f hwv] at hw
      exact h.bound w hw
  · by_cases hwv : w = v
    · rw [hwv]
      exact h.walks v hne
    · rw [evicted_pte_ne s priv f hwv] at hw
      exact h.walks w hw
  · by_cases hgf : g = f
    · rw [hgf]
      exact ⟨(h.pool f hfps).1, Function.update_self _ _ _⟩
    · have hold := h.free g ((Finset.mem_insert.1 hg).resolve_left hgf)
      exact ⟨hold.1, (Function.update_of_ne hgf _ _).trans hold.2⟩
  · obtain ⟨hfree, hrecorded⟩ := h.frames a g ha
    refine ⟨fun hin => ?_, fun hin => hrecorded (hsub g hin).1⟩
    rcases Finset.mem_insert.1 hin with heq | hin
    · exact hrecorded (heq ▸ hfps)
    · exact hfree hin

theorem Inv.evicted_still (h : Inv pmm Rep s ps) (priv : μ) (hf : (s.pte v).frame = some f) :
    Still s (s.evicted priv v f) := by
  have hne := Pte.ne_zero_of_frame hf
  have hswapped := swapped_swapEntry (h.slot_lt hne)
  have hslot := slot_swapEntry (h.slot_lt hne)
  refine ⟨⟨rfl, rfl, rfl⟩, fun w => ?_, fun w hw => ?_, fun a g ha => ha⟩
  · by_cases hwv : w = v
    · have hbytes : (s.evicted priv v f).swap (v + 1) = s.mem f := Function.update_self _ _ _
      rw [hwv, content_frame hf, content_slot (by rw [evicted_pte_self]; exact hswapped.1)
        (by rw [evicted_pte_self]; exact hswapped.2), evicted_pte_self, hslot, hbytes]
    · refine content_congr (evicted_pte_ne s priv f hwv) (fun _ _ => rfl) fun hw hnot => ?_
      -- another page has another slot
      have hentry := h.swapped w hw hnot
      rw [hentry, slot_swapEntry (h.slot_lt hw)]
      exact Function.update_of_ne (fun heq => hwv (Nat.succ.inj heq)) _ _
  · have hwv : w ≠ v := by
      rintro rfl
      exact hw (Pte.frame_eq_some.1 hf).1
    exact evicted_pte_ne s priv f hwv

theorem swapOut_spec (hlaw : Lawful sm Rep) (h : Inv pmm Rep s ps) (hne : ps ≠ []) :
    Ends (fun bound => swapOut pmm sm bound s) fun t => ∃ ps', (Inv pmm Rep t ps' ∧ Still s t ∧
      t.free.card + ps'.length = s.free.card + ps.length ∧ t.free.Nonempty) ∧ ∀ a, t.frameOf a = s.frameOf a := by
  obtain ⟨f, priv, ps', ⟨limit, hrun⟩, hrep, hperm⟩ := hlaw.victim s.priv ps h.rep hne
  have hfps : f ∈ ps := hperm.mem_iff.2 List.mem_cons_self
  obtain ⟨v, hf⟩ := h.mapped f hfps
  have hzero := Pte.ne_zero_of_frame hf
  obtain ⟨hpool, hfree⟩ := h.pool f hfps
  have hva := (h.present v f hf).2.1
  have hslot := slot_swapEntry (h.slot_lt hzero)
  have hdiv : v * pgSize / pgSize = v := Nat.mul_div_cancel v (by decide)
  have hwalks : (⟨priv, s.swapInitOk, s.maxSwapOffset, s.mmap, s.dirs, s.tables, s.pte, s.ref, s.praVaddr, s.free,
      s.mem, s.swap⟩ : Sys μ).Walks (vpn (v * pgSize)) := by
    rw [vpn_mul (h.vpn_lt hzero)]
    exact h.walks v hzero
  have hfind := findPte_walks hwalks
  rw [vpn_mul (h.vpn_lt hzero)] at hfind
  refine ⟨s.evicted priv v f, ⟨limit, fun bound hbound => ?_⟩, ps', ⟨h.evicted hf hrep hperm,
    h.evicted_still priv hf, ?_, ⟨f, Finset.mem_insert_self _ _⟩⟩, fun _ => rfl⟩
  · have hvictim : sm.swapOutVictim bound s.priv = done (some f, priv) := hrun bound hbound
    have hvalid : (s.pte v).Valid := (Pte.frame_eq_some.1 hf).1
    have hbounds : 0 < v + 1 ∧ v + 1 < s.maxSwapOffset := ⟨Nat.succ_pos v, h.bound v hzero⟩
    change swapOut pmm sm bound s = done (s.evicted priv v f)
    unfold swapOut swapOffset freePage
    simp only [hvictim, bind_done, hva, hfind, assert_of hvalid, hdiv, hslot, assert_of hbounds, pure_eq_done,
      assert_of hpool, if_neg hfree]
    rfl
  · have hcard : (s.evicted priv v f).free.card = s.free.card + 1 := Finset.card_insert_of_notMem hfree
    have hlen := hperm.length_eq
    rw [List.length_cons] at hlen
    rw [hcard, hlen]
    omega

/-! ## Frames -/

/-- The page allocator finds a page as long as one is free. -/
def Picks (pmm : PageAllocator) : Prop := ∀ free, free.Nonempty → pmm.pick free ≠ none

/-- The state without a free frame. -/
def Sys.takeFrame (s : Sys μ) (f : Nat) : Sys μ := { s with free := s.free.erase f }

/-- What a request for a frame gives: a fresh frame, with the bytes of all pages as they were. -/
structure Allocated (pmm : PageAllocator) (Rep : μ → List Nat → Prop) (s : Sys μ) (ps : List Nat) (f : Nat) (t : Sys μ)
    (ps' : List Nat) : Prop where
  inv : Inv pmm Rep t ps'
  still : Still s t
  fresh : Fresh pmm t ps' f
  tables : ∀ a, t.frameOf a = s.frameOf a
  room : t.free.card + ps'.length + 1 = s.free.card + ps.length

theorem Inv.takeFrame (h : Inv pmm Rep s ps) (hf : f ∈ s.free) : Allocated pmm Rep s ps f (s.takeFrame f) ps := by
  have hsub : ∀ g, g ∈ s.free.erase f → g ∈ s.free := fun g hg => Finset.mem_of_mem_erase hg
  refine ⟨⟨⟨h.config.ok, h.config.slots, h.config.write, h.config.areas⟩, h.rep, h.nodup,
    fun g hg => ⟨(h.pool g hg).1, fun hin => (h.pool g hg).2 (hsub g hin)⟩, h.mapped, h.present, h.perm, h.swapped,
    h.bound, h.walks, fun g hg => h.free g (hsub g hg), h.dirs,
    fun a g ha => ⟨fun hin => (h.frames a g ha).1 (hsub g hin), (h.frames a g ha).2⟩, h.single⟩,
    ⟨⟨rfl, rfl, rfl⟩, fun _ => rfl, fun _ _ => rfl, fun _ _ ha => ha⟩, ⟨(h.free f hf).1, Finset.notMem_erase f _,
    fun hin => (h.pool f hin).2 hf, (h.free f hf).2, fun a ha => (h.frames a f ha).1 hf⟩, fun _ => rfl, ?_⟩
  have hcard := Finset.card_erase_add_one hf
  change (s.free.erase f).card + ps.length + 1 = s.free.card + ps.length
  omega

theorem allocPage_free (hpick : Picks pmm) (h : Inv pmm Rep s ps) (hfree : s.free.Nonempty) :
    Ends (fun bound => allocPage pmm sm bound s) fun r => ∃ f, r.1 = some f ∧ Allocated pmm Rep s ps f r.2 ps := by
  obtain ⟨f, hf⟩ := Option.ne_none_iff_exists'.1 (hpick s.free hfree)
  have hdone : Ends (fun _ => done (some f, s.takeFrame f)) fun r : Option Nat × Sys μ =>
      ∃ f, r.1 = some f ∧ Allocated pmm Rep s ps f r.2 ps :=
    Ends.of_done (fun _ => rfl) ⟨f, rfl, h.takeFrame (pmm.pick_mem s.free f hf)⟩
  refine hdone.round fun n => ?_
  unfold allocPage
  rw [hf]
  rfl

/-- With a free frame or a page to evict there is a frame. -/
theorem allocPage_spec (hlaw : Lawful sm Rep) (hpick : Picks pmm) (h : Inv pmm Rep s ps)
    (hroom : 0 < s.free.card + ps.length) : Ends (fun bound => allocPage pmm sm bound s) fun r =>
      ∃ f ps', r.1 = some f ∧ Allocated pmm Rep s ps f r.2 ps' := by
  by_cases hfree : s.free.Nonempty
  · refine (allocPage_free hpick h hfree).mono fun r hr => ?_
    obtain ⟨f, hf, hallocated⟩ := hr
    exact ⟨f, ps, hf, hallocated⟩
  have hempty : s.free = ∅ := Finset.not_nonempty_iff_eq_empty.1 hfree
  have hne : ps ≠ [] := by
    rintro rfl
    rw [hempty] at hroom
    exact absurd hroom (lt_irrefl 0)
  have hnone : pmm.pick s.free = none := by
    cases hcase : pmm.pick s.free with
    | none => rfl
    | some f => exact absurd ⟨f, pmm.pick_mem s.free f hcase⟩ hfree
  -- a page is evicted, and then there is a free frame
  have hevict : Ends (fun bound => swapOut pmm sm bound s >>= fun s => allocPage pmm sm bound s) fun r =>
      ∃ f ps', r.1 = some f ∧ Allocated pmm Rep s ps f r.2 ps' := by
    refine (swapOut_spec hlaw h hne).bind fun t ht => ?_
    obtain ⟨ps', ⟨hinv, hstill, hcard, hfree'⟩, htables⟩ := ht
    refine (allocPage_free hpick hinv hfree').mono fun r hr => ?_
    obtain ⟨f, hf, hallocated⟩ := hr
    exact ⟨f, ps', hf, hallocated.inv, hstill.trans hallocated.still, hallocated.fresh,
      fun a => (hallocated.tables a).trans (htables a), hallocated.room.trans hcard⟩
  refine hevict.round fun n => ?_
  have hok : ¬ s.swapInitOk = false := by
    rw [h.config.ok]
    exact Bool.noConfusion
  conv_lhs => unfold allocPage
  rw [hnone]
  dsimp only
  rw [if_neg hok]

/-- With a directory and a table to come, there must be a frame for each of them. -/
theorem ensureTable_spec (hlaw : Lawful sm Rep) (hpick : Picks pmm) (h : Inv pmm Rep s ps) (a : TableSlot)
    {install : Sys μ → Nat → Sys μ} (hroom : s.frameOf a = none → 0 < s.free.card + ps.length)
    (hinstall : ∀ t ps' f, s.frameOf a = none → Allocated pmm Rep s ps f t ps' →
      Inv pmm Rep (install t f) ps' ∧ Still t (install t f) ∧ (install t f).free = t.free ∧
        ∀ b, (install t f).frameOf b = if b = a then some f else t.frameOf b) :
    Ends (fun bound => ensureTable (allocPage pmm sm bound) s (s.frameOf a) install) fun r =>
      r.1 = true ∧ ∃ ps', (Inv pmm Rep r.2 ps' ∧ Still s r.2 ∧ r.2.frameOf a ≠ none ∧
        r.2.free.card + ps'.length + (if s.frameOf a = none then 1 else 0) = s.free.card + ps.length) ∧
        ∀ b, b ≠ a → r.2.frameOf b = s.frameOf b := by
  cases ha : s.frameOf a with
  | some p =>
      refine Ends.of_done (fun _ => rfl) ⟨rfl, ps, ⟨h, Still.refl s, ?_, ?_⟩, fun _ _ => rfl⟩
      · change s.frameOf a ≠ none
        rw [ha]
        exact Option.some_ne_none p
      · rw [if_neg (Option.some_ne_none p)]
        rfl
  | none =>
      refine (allocPage_spec hlaw hpick h (hroom ha)).bind fun r hr => ?_
      obtain ⟨f, ps', hf, hallocated⟩ := hr
      obtain ⟨hinv, hstill, hfree, hframe⟩ := hinstall r.2 ps' f ha hallocated
      rw [hf]
      refine Ends.of_done (fun _ => rfl) ⟨rfl, ps', ⟨hinv, hallocated.still.trans hstill, ?_, ?_⟩, fun b hb => ?_⟩
      · rw [hframe, if_pos rfl]
        exact Option.some_ne_none f
      · rw [if_pos rfl, hfree]
        exact hallocated.room
      · change (install r.2 f).frameOf b = s.frameOf b
        rw [hframe, if_neg hb]
        exact hallocated.tables b

/-- The tables that are missing for a page -/
def Sys.missing (s : Sys μ) (v : Nat) : Nat :=
  (if s.dirs (v / nPteEntry ^ 2) = none then 1 else 0) + if s.tables (v / nPteEntry) = none then 1 else 0

/-- `get_pte` gives the entry of the page, with the tables that were missing. -/
theorem getPte_spec (hlaw : Lawful sm Rep) (hpick : Picks pmm) (h : Inv pmm Rep s ps)
    (hroom : s.missing (vpn la) ≤ s.free.card + ps.length) : Ends (fun bound => getPte pmm sm bound s la) fun r =>
      r.1 = some (vpn la) ∧ ∃ ps', Inv pmm Rep r.2 ps' ∧ Still s r.2 ∧ r.2.Walks (vpn la) ∧
        r.2.free.card + ps'.length + s.missing (vpn la) = s.free.card + ps.length := by
  have hdiv : vpn la / nPteEntry / nPteEntry = vpn la / nPteEntry ^ 2 := by rw [Nat.div_div_eq_div_mul, ← pow_two]
  have hdir : s.frameOf (TableSlot.dir (vpn la / nPteEntry ^ 2)) = s.dirs (vpn la / nPteEntry ^ 2) := rfl
  have htable : s.frameOf (TableSlot.table (vpn la / nPteEntry)) = s.tables (vpn la / nPteEntry) := rfl
  have hmissing : s.missing (vpn la) = (if s.frameOf (TableSlot.dir (vpn la / nPteEntry ^ 2)) = none then 1 else 0) +
      if s.frameOf (TableSlot.table (vpn la / nPteEntry)) = none then 1 else 0 := rfl
  have hfirst := ensureTable_spec hlaw hpick h (TableSlot.dir (vpn la / nPteEntry ^ 2))
    (fun hnone => by rw [hmissing, if_pos hnone] at hroom; omega)
    fun t ps' f hnone hallocated => hallocated.inv.newDir hallocated.fresh ((hallocated.tables _).trans hnone)
  refine hfirst.bind fun r hr => ?_
  obtain ⟨htrue, ps₁, ⟨hinv₁, hstill₁, hdir₁, hcard₁⟩, hothers⟩ := hr
  have htable₁ := hothers (TableSlot.table (vpn la / nPteEntry)) fun heq => TableSlot.noConfusion heq
  rw [htrue]
  have hsecond := ensureTable_spec hlaw hpick hinv₁ (TableSlot.table (vpn la / nPteEntry))
    (fun hnone => by
      rw [htable₁] at hnone
      rw [hmissing, if_pos hnone] at hroom
      omega)
    fun t ps' f hnone hallocated => hallocated.inv.newTable hallocated.fresh ((hallocated.tables _).trans hnone)
      (by
        rw [hdiv]
        have hkept := hallocated.tables (TableSlot.dir (vpn la / nPteEntry ^ 2))
        exact fun hno => hdir₁ (hkept.symm.trans hno))
  refine hsecond.bind fun q hq => ?_
  obtain ⟨htrue', ps₂, ⟨hinv₂, hstill₂, htable₂, hcard₂⟩, hothers'⟩ := hq
  have hdir₂ := hothers' (TableSlot.dir (vpn la / nPteEntry ^ 2)) fun heq => TableSlot.noConfusion heq
  rw [htrue']
  refine Ends.of_done (fun _ => rfl) ⟨rfl, ps₂, hinv₂, hstill₁.trans hstill₂, ⟨?_, htable₂⟩, ?_⟩
  · exact fun hno => hdir₁ (hdir₂.symm.trans hno)
  · rw [htable₁] at hcard₂
    change q.2.free.card + ps₂.length + s.missing (vpn la) = s.free.card + ps.length
    rw [hmissing]
    omega

/-! ## Page faults -/

/-- The permissions of the pages that can be written -/
def writable : Perm := { bits := pteU ||| (pteR ||| pteW), flags := by decide }

theorem faultBits_eq {flags : UInt32} (h : flags &&& vmWrite ≠ 0) : faultBits flags = writable.bits := if_pos h

/-- The state with the frame `f` mapped at the page `v` and recorded with the swap manager. -/
def Sys.mapped (s : Sys μ) (priv : μ) (v f : Nat) : Sys μ :=
  { s with
    priv := priv
    ref := Function.update s.ref f 1
    pte := Function.update s.pte v (pteCreate f (pteV ||| writable.bits))
    praVaddr := Function.update s.praVaddr f (v * pgSize) }

theorem frame_writable (h : f < npage) : Pte.frame (pteCreate f (pteV ||| writable.bits)) = some f :=
  frame_pteCreate h { bits := pteV ||| writable.bits, flags := by decide }

theorem mapped_pte_self (s : Sys μ) (priv : μ) (v f : Nat) :
    (s.mapped priv v f).pte v = pteCreate f (pteV ||| writable.bits) := Function.update_self _ _ _

theorem mapped_pte_ne (s : Sys μ) (priv : μ) (f : Nat) (h : w ≠ v) : (s.mapped priv v f).pte w = s.pte w :=
  Function.update_of_ne h _ _

theorem Inv.mapFrame (h : Inv pmm Rep s ps) (hf : Fresh pmm s ps f) {priv : μ} (hv : ¬ (s.pte v).Valid)
    (hw : s.Walks v) (hbound : v + 1 < s.maxSwapOffset) (hrep : Rep priv ps') (hperm : ps'.Perm (f :: ps)) :
    Inv pmm Rep (s.mapped priv v f) ps' := by
  have hframe := frame_writable (pmm.pool_lt f hf.pool)
  have hself : ((s.mapped priv v f).pte v).frame = some f := by rw [mapped_pte_self]; exact hframe
  have hother : ∀ w g, w ≠ v → ((s.mapped priv v f).pte w).frame = some g → (s.pte w).frame = some g := by
    intro w g hwv hg
    rw [mapped_pte_ne s priv f hwv] at hg
    exact hg
  refine ⟨⟨h.config.ok, h.config.slots, h.config.write, h.config.areas⟩, hrep,
    hperm.nodup_iff.2 (List.nodup_cons.2 ⟨hf.recorded, h.nodup⟩), fun g hg => ?_, fun g hg => ?_, fun w g hg => ?_,
    fun w hw' => ?_, fun w hw' hnot => ?_, fun w hw' => ?_, fun w hw' => ?_, fun g hg => ?_, h.dirs, fun a g ha => ?_,
    h.single⟩
  · rcases List.mem_cons.1 (hperm.mem_iff.1 hg) with rfl | hg
    · exact ⟨hf.pool, hf.free⟩
    · exact h.pool g hg
  · rcases List.mem_cons.1 (hperm.mem_iff.1 hg) with rfl | hg
    · exact ⟨v, hself⟩
    · obtain ⟨w, hw'⟩ := h.mapped g hg
      have hwv : w ≠ v := by
        rintro rfl
        exact hv (Pte.frame_eq_some.1 hw').1
      exact ⟨w, by rw [mapped_pte_ne s priv f hwv]; exact hw'⟩
  · by_cases hwv : w = v
    · rw [hwv] at hg ⊢
      obtain rfl : f = g := Option.some.inj (hself.symm.trans hg)
      exact ⟨hperm.mem_iff.2 List.mem_cons_self, Function.update_self _ _ _, Function.update_self _ _ _⟩
    · obtain ⟨hgps, hva, href⟩ := h.present w g (hother w g hwv hg)
      have hgf : g ≠ f := fun heq => hf.recorded (heq ▸ hgps)
      exact ⟨hperm.mem_iff.2 (List.mem_cons_of_mem f hgps), (Function.update_of_ne hgf _ _).trans hva,
        (Function.update_of_ne hgf _ _).trans href⟩
  · by_cases hwv : w = v
    · have hr := pteCreate_flag f writable (show flagMask &&& pteR = pteR by decide)
      have hwr := pteCreate_flag f writable (show flagMask &&& pteW = pteW by decide)
      rw [hwv, mapped_pte_self, hr, hwr]
      exact ⟨by decide, by decide⟩
    · rw [mapped_pte_ne s priv f hwv] at hw' ⊢
      exact h.perm w hw'
  · by_cases hwv : w = v
    · rw [hwv] at hnot
      exact absurd (Pte.frame_eq_some.1 hself).1 hnot
    · rw [mapped_pte_ne s priv f hwv] at hw' hnot ⊢
      exact h.swapped w hw' hnot
  · by_cases hwv : w = v
    · rw [hwv]
      exact hbound
    · rw [mapped_pte_ne s priv f hwv] at hw'
      exact h.bound w hw'
  · by_cases hwv : w = v
    · rw [hwv]
      exact hw
    · rw [mapped_pte_ne s priv f hwv] at hw'
      exact h.walks w hw'
  · have hgf : g ≠ f := fun heq => hf.free (heq ▸ hg)
    exact ⟨(h.free g hg).1, (Function.update_of_ne hgf _ _).trans (h.free g hg).2⟩
  · refine ⟨(h.frames a g ha).1, fun hin => ?_⟩
    rcases List.mem_cons.1 (hperm.mem_iff.1 hin) with rfl | hin
    · exact hf.table a ha
    · exact (h.frames a g ha).2 hin

theorem mapped_content (hf : f ∈ pmm.pool) (priv : μ) : (s.mapped priv v f).content v = some (s.mem f) :=
  content_frame (s := s.mapped priv v f) (by rw [mapped_pte_self]; exact frame_writable (pmm.pool_lt f hf))

theorem mapped_content_ne (s : Sys μ) (priv : μ) (f : Nat) (h : w ≠ v) :
    (s.mapped priv v f).content w = s.content w :=
  content_congr (mapped_pte_ne s priv f h) (fun _ _ => rfl) fun _ _ => rfl

/-- `page_insert` where the entry maps nothing and the tables are there. -/
theorem pageInsert_walks (hw : s.Walks (vpn la)) (hv : ¬ (s.pte (vpn la)).Valid) (bound page : Nat) (perm : UInt64) :
    pageInsert pmm sm bound s page la perm = done (0, { s with
      ref := Function.update s.ref page (s.ref page + 1)
      pte := Function.update s.pte (vpn la) (pteCreate page (pteV ||| perm)) }) := by
  have hget : getPte pmm sm bound s la = done (some (vpn la), s) := getPteWith_walks _ hw
  unfold pageInsert
  simp only [hget, bind_done, if_neg hv, pure_eq_done]

/-- A page that has been brought into a frame, while the bytes of all pages stay known. -/
structure Served (pmm : PageAllocator) (Rep : μ → List Nat → Prop) (s : Sys μ) (v : Nat) (t : Sys μ) : Prop where
  inv : ∃ ps, Inv pmm Rep t ps
  mmap : t.mmap = s.mmap
  walks : t.Walks v
  present : (t.pte v).frame ≠ none
  content : ∀ w bytes, s.content w = some bytes → t.content w = some bytes

theorem Served.after (h : Served pmm Rep t v u) (hs : Still s t) : Served pmm Rep s v u :=
  ⟨h.inv, h.mmap.trans hs.config.2.2, h.walks, h.present,
    fun w bytes hw => h.content w bytes ((hs.content w).trans hw)⟩

/-- A fresh frame that has the bytes of the page, if these are known, is mapped and recorded. -/
theorem place_spec (hlaw : Lawful sm Rep) (h : Inv pmm Rep s ps) (hf : Fresh pmm s ps f) (hla : vpn la * pgSize = la)
    (hw : s.Walks (vpn la)) (hv : ¬ (s.pte (vpn la)).Valid) (hbound : vpn la + 1 < s.maxSwapOffset)
    (hbytes : ∀ bytes, s.content (vpn la) = some bytes → s.mem f = bytes) :
    ∃ s' t, (∀ bound, pageInsert pmm sm bound s f la writable.bits = done (0, s')) ∧ s'.swapInitOk = true ∧
      mapSwappable sm s' la f = done t ∧ t.ref f = 1 ∧ Served pmm Rep s (vpn la) t := by
  obtain ⟨priv, ps', hmap, hrep, hperm⟩ := hlaw.map s.priv ps f h.rep hf.recorded
  have hinsert := fun bound => show pageInsert pmm sm bound s f la writable.bits = _ from
    pageInsert_walks hw hv bound f writable.bits
  have hone : s.ref f + 1 = 1 := by
    rw [hf.ref]
    rfl
  rw [hone] at hinsert
  refine ⟨_, s.mapped priv (vpn la) f, hinsert, h.config.ok, ?_, Function.update_self _ _ _,
    ⟨⟨ps', h.mapFrame hf hv hw hbound hrep hperm⟩, rfl, hw, ?_, fun w bytes hw' => ?_⟩⟩
  · unfold mapSwappable
    dsimp only
    rw [hmap]
    unfold Sys.mapped
    rw [hla]
    rfl
  · rw [mapped_pte_self, frame_writable (pmm.pool_lt f hf.pool)]
    exact Option.some_ne_none f
  · by_cases hwv : w = vpn la
    · rw [hwv] at hw' ⊢
      rw [mapped_content hf.pool, hbytes bytes hw']
    · rw [mapped_content_ne s priv f hwv]
      exact hw'

/-- `pgdir_alloc_page` for a page that has not been used. -/
theorem pgdirAllocPage_spec (hlaw : Lawful sm Rep) (hpick : Picks pmm) (h : Inv pmm Rep s ps)
    (hroom : 0 < s.free.card + ps.length) (hla : vpn la * pgSize = la) (hw : s.Walks (vpn la))
    (hzero : s.pte (vpn la) = 0) (hbound : vpn la + 1 < s.maxSwapOffset) :
    Ends (fun bound => pgdirAllocPage pmm sm bound s la writable.bits) fun r =>
      r.1 ≠ none ∧ Served pmm Rep s (vpn la) r.2 := by
  refine (allocPage_spec hlaw hpick h hroom).bind fun r hr => ?_
  obtain ⟨f, ps', hsome, hallocated⟩ := hr
  have hinvalid : ¬ (s.pte (vpn la)).Valid := by
    rw [hzero]
    exact not_valid_zero
  have hkept : r.2.pte (vpn la) = 0 := (hallocated.still.absent _ hinvalid).trans hzero
  have hunknown : r.2.content (vpn la) = none := content_zero hkept
  obtain ⟨s', t, hinsert, hok, hmap, href, hserved⟩ := place_spec hlaw hallocated.inv hallocated.fresh hla
    (hallocated.still.walks hw) (by rw [hkept]; exact not_valid_zero)
    (by rw [hallocated.still.config.2.1]; exact hbound)
    (fun bytes hbytes => absurd (hunknown.symm.trans hbytes) (Option.some_ne_none bytes).symm)
  rw [hsome]
  refine Ends.of_done (a := (some f, t)) (fun bound => ?_) ⟨Option.some_ne_none f, hserved.after hallocated.still⟩
  simp only [hinsert, bind_done, hok, hmap, assert_of href, pure_eq_done]
  rfl

/-- The state with other bytes in a frame. -/
def Sys.withBytes (s : Sys μ) (f : Nat) (bytes : Nat → UInt8) : Sys μ :=
  { s with mem := Function.update s.mem f bytes }

theorem Inv.withBytes (h : Inv pmm Rep s ps) (f : Nat) (bytes : Nat → UInt8) :
    Inv pmm Rep (s.withBytes f bytes) ps :=
  ⟨⟨h.config.ok, h.config.slots, h.config.write, h.config.areas⟩, h.rep, h.nodup, h.pool, h.mapped, h.present, h.perm,
    h.swapped, h.bound, h.walks, h.free, h.dirs, h.frames, h.single⟩

theorem withBytes_mem (s : Sys μ) (f : Nat) (bytes : Nat → UInt8) : (s.withBytes f bytes).mem f = bytes :=
  Function.update_self _ _ _

theorem withBytes_content (bytes : Nat → UInt8) (h : (s.pte w).frame ≠ some f) :
    (s.withBytes f bytes).content w = s.content w := by
  refine content_congr rfl (fun g hg => ?_) fun _ _ => rfl
  have hgf : g ≠ f := fun heq => h (heq ▸ hg)
  exact Function.update_of_ne hgf _ _

/-- `swap_in` gives a fresh frame with the bytes of the page. -/
theorem swapIn_spec (hlaw : Lawful sm Rep) (hpick : Picks pmm) (h : Inv pmm Rep s ps)
    (hroom : 0 < s.free.card + ps.length) (hw : s.Walks (vpn la)) (hne : s.pte (vpn la) ≠ 0)
    (hv : ¬ (s.pte (vpn la)).Valid) : Ends (fun bound => swapIn pmm sm bound s la) fun r =>
      ∃ ps', Inv pmm Rep r.2 ps' ∧ Still s r.2 ∧ Fresh pmm r.2 ps' r.1 ∧
        r.2.content (vpn la) = some (r.2.mem r.1) := by
  refine (allocPage_spec hlaw hpick h hroom).bind fun r hr => ?_
  obtain ⟨f, ps', hsome, hallocated⟩ := hr
  have hinv := hallocated.inv
  have hkept := hallocated.still.absent _ hv
  have hentry := h.swapped _ hne hv
  have hslot : (r.2.pte (vpn la)).slot = vpn la + 1 := by
    rw [hkept, hentry]
    exact slot_swapEntry (h.slot_lt hne)
  have hbounds : 0 < vpn la + 1 ∧ vpn la + 1 < r.2.maxSwapOffset := by
    rw [hallocated.still.config.2.1]
    exact ⟨Nat.succ_pos _, h.bound _ hne⟩
  have hfind := findPte_walks (hallocated.still.walks hw)
  rw [hsome]
  have hbytes : ∀ w, (r.2.withBytes f (r.2.swap (vpn la + 1))).content w = r.2.content w := by
    intro w
    -- the frame of a page is recorded, and the new one is not
    exact withBytes_content _ fun heq => hallocated.fresh.recorded (hinv.present w f heq).1
  refine Ends.of_done (a := (f, r.2.withBytes f (r.2.swap (vpn la + 1)))) (fun bound => ?_)
    ⟨ps', hinv.withBytes f _, ⟨hallocated.still.config, fun w => ?_, hallocated.still.absent,
      hallocated.still.tables⟩, ?_, ?_⟩
  · simp only [hfind, bind_done, swapOffset, hslot, assert_of hbounds, pure_eq_done]
    rfl
  · exact (hbytes w).trans (hallocated.still.content w)
  · exact ⟨hallocated.fresh.pool, hallocated.fresh.free, hallocated.fresh.recorded, hallocated.fresh.ref,
      hallocated.fresh.table⟩
  · have hold : r.2.content (vpn la) = some (r.2.swap (vpn la + 1)) := by
      rw [content_slot (by rw [hkept]; exact hne) (by rw [hkept]; exact hv), hslot]
    rw [hbytes, withBytes_mem]
    exact hold

/-- The page of an address in an area. -/
theorem Inv.page_of_area (h : Inv pmm Rep s ps) {vma : Vma} {addr : Nat} (hvma : findVma s.mmap addr = some vma) :
    vpn addr = addr / pgSize ∧ vpn addr + 1 < s.maxSwapOffset ∧ vma ∈ s.mmap := by
  have hin := List.mem_of_find?_eq_some hvma
  have hrange := List.find?_some hvma
  simp only [decide_eq_true_eq] at hrange
  have hstop := h.config.areas vma hin
  have hslots := h.config.slots
  have hlt : addr / pgSize < s.maxSwapOffset - 1 := Nat.div_lt_of_lt_mul (by rw [Nat.mul_comm]; omega)
  have hnum : nPteEntry ^ 3 = 2 ^ 27 := by decide
  have hvpn : vpn addr = addr / pgSize := Nat.mod_eq_of_lt (by omega)
  exact ⟨hvpn, by omega, hin⟩

/-- `do_pgfault` brings a page of an area in, as long as the frames are enough for its tables and for itself. -/
theorem doPgfault_spec (hlaw : Lawful sm Rep) (hpick : Picks pmm) (h : Inv pmm Rep s ps) {vma : Vma} {addr : Nat}
    (hvma : findVma s.mmap addr = some vma) (hv : ¬ (s.pte (vpn addr)).Valid)
    (hroom : s.missing (vpn addr) < s.free.card + ps.length) :
    Ends (fun bound => doPgfault pmm sm bound s addr) fun r => r.1 = 0 ∧ Served pmm Rep s (vpn addr) r.2 := by
  obtain ⟨hvpn, hbound, hin⟩ := h.page_of_area hvma
  have hbits := faultBits_eq (h.config.write vma hin)
  have hround := roundDown_eq addr pgSize
  have hla : vpn (roundDown addr pgSize) = vpn addr := by
    unfold vpn
    rw [hround, Nat.mul_div_cancel _ (by decide)]
  have hmul : vpn (roundDown addr pgSize) * pgSize = roundDown addr pgSize := by rw [hla, hround, hvpn]
  have hbody : Ends (fun bound => faultPage pmm sm bound s (roundDown addr pgSize) writable.bits) fun r =>
      r.1 = 0 ∧ Served pmm Rep s (vpn addr) r.2 := by
    refine (getPte_spec hlaw hpick h (by rw [hla]; exact hroom.le)).bind fun p hp => ?_
    obtain ⟨hsome, ps₁, hinv, hstill, hwalks, hcard⟩ := hp
    have hkept : p.2.pte (vpn (roundDown addr pgSize)) = s.pte (vpn addr) := by
      rw [hla]
      exact hstill.absent _ hv
    have hroom₁ : 0 < p.2.free.card + ps₁.length := by
      rw [hla] at hcard
      omega
    have hbound₁ : vpn (roundDown addr pgSize) + 1 < p.2.maxSwapOffset := by
      rw [hla, hstill.config.2.1]
      exact hbound
    have hv₁ : ¬ (p.2.pte (vpn (roundDown addr pgSize))).Valid := by
      rw [hkept]
      exact hv
    rw [hsome]
    by_cases hzero : p.2.pte (vpn (roundDown addr pgSize)) = 0
    · simp only [if_pos hzero]
      refine (pgdirAllocPage_spec hlaw hpick hinv hroom₁ hmul hwalks hzero hbound₁).bind fun r hr => ?_
      obtain ⟨hpage, hserved⟩ := hr
      refine Ends.of_done (fun _ => rfl) ⟨if_neg hpage, ?_⟩
      rw [← hla]
      exact hserved.after hstill
    · simp only [if_neg hzero, if_pos hinv.config.ok]
      refine (swapIn_spec hlaw hpick hinv hroom₁ hwalks hzero hv₁).bind fun r hr => ?_
      obtain ⟨ps₂, hinv₂, hstill₂, hfresh, hcontent⟩ := hr
      obtain ⟨s', t, hinsert, -, hmap, -, hserved⟩ := place_spec hlaw hinv₂ hfresh hmul (hstill₂.walks hwalks)
        (by rw [hstill₂.absent _ hv₁]; exact hv₁) (by rw [hstill₂.config.2.1]; exact hbound₁)
        (fun bytes hbytes => Option.some.inj (hcontent.symm.trans hbytes))
      refine Ends.of_done (a := (0, t)) (fun bound => ?_) ⟨rfl, ?_⟩
      · simp only [hinsert, bind_done, hmap, pure_eq_done]
      · rw [← hla]
        exact hserved.after (hstill.trans hstill₂)
  refine hbody.congr fun bound => ?_
  unfold doPgfault
  rw [hvma, ← hbits]

/-! ## Accesses -/

/-- A page that is mapped is found by the processor. -/
theorem Inv.translate (h : Inv pmm Rep s ps) {va : Nat} {flag : UInt64} (hflag : flag = pteR ∨ flag = pteW)
    (hf : (s.pte (vpn va)).frame = some f) : s.translate va flag = some f := by
  have hw := h.walks _ (Pte.ne_zero_of_frame hf)
  obtain ⟨hread, hwrite⟩ := h.perm _ (Pte.frame_eq_some.1 hf).1
  have hallowed : ¬ s.pte (vpn va) &&& flag = 0 := by
    rcases hflag with rfl | rfl
    · exact hread
    · exact hwrite
  unfold Sys.translate
  rw [if_neg (not_or.2 hw), if_neg hallowed]
  exact hf

/-- What an access finds: the frame of its page, with the bytes of all pages as they were. -/
structure Found (pmm : PageAllocator) (Rep : μ → List Nat → Prop) (s : Sys μ) (va : Nat) (r : Nat × Sys μ) : Prop where
  inv : ∃ ps, Inv pmm Rep r.2 ps
  mmap : r.2.mmap = s.mmap
  frame : (r.2.pte (vpn va)).frame = some r.1
  content : ∀ w bytes, s.content w = some bytes → r.2.content w = some bytes

theorem withFrame_spec (hlaw : Lawful sm Rep) (hpick : Picks pmm) (h : Inv pmm Rep s ps) {vma : Vma} {va : Nat}
    {flag : UInt64} (hflag : flag = pteR ∨ flag = pteW) (hvma : findVma s.mmap va = some vma)
    (hroom : s.missing (vpn va) < s.free.card + ps.length) :
    Ends (fun bound => withFrame pmm sm bound s va flag) (Found pmm Rep s va) := by
  -- a page that is mapped needs one more round only
  have hpresent : ∀ {t : Sys μ} {qs g}, Inv pmm Rep t qs → (t.pte (vpn va)).frame = some g →
      Ends (fun bound => withFrame pmm sm bound t va flag) fun r => r = (g, t) := by
    intro t qs g hinv hg
    have hdone : Ends (fun _ => done (g, t)) fun r => r = (g, t) := Ends.of_done (fun _ => rfl) rfl
    refine hdone.round fun n => ?_
    unfold withFrame
    rw [hinv.translate hflag hg]
    rfl
  cases hf : (s.pte (vpn va)).frame with
  | some g =>
      refine (hpresent h hf).mono fun r hr => ?_
      rw [hr]
      exact ⟨⟨ps, h⟩, rfl, hf, fun _ _ hw => hw⟩
  | none =>
      have hinvalid := Pte.frame_eq_none.1 hf
      have htranslate : s.translate va flag = none := by
        unfold Sys.translate
        split
        · rfl
        · split
          · rfl
          · exact hf
      have hfault : Ends (fun bound => doPgfault pmm sm bound s va >>= fun r => do
          assert (r.1 = 0)
          withFrame pmm sm bound r.2 va flag) (Found pmm Rep s va) := by
        refine (doPgfault_spec hlaw hpick h hvma hinvalid hroom).bind fun r hr => ?_
        obtain ⟨hzero, hserved⟩ := hr
        obtain ⟨qs, hinv⟩ := hserved.inv
        obtain ⟨g, hg⟩ := Option.ne_none_iff_exists'.1 hserved.present
        have hagain := (hpresent hinv hg).congr (g := fun bound => do
          assert (r.1 = 0)
          withFrame pmm sm bound r.2 va flag) fun bound => by
            rw [assert_of hzero]
            rfl
        refine hagain.mono fun q hq => ?_
        rw [hq]
        exact ⟨⟨qs, hinv⟩, hserved.mmap, hg, hserved.content⟩
      refine hfault.round fun n => ?_
      conv_lhs => unfold withFrame
      rw [htranslate]

/-- The frames that are mapped, of which the swap manager can evict one. -/
def Sys.resident (pmm : PageAllocator) (s : Sys μ) : Finset Nat :=
  pmm.pool.filter fun f => ∃ v, v < s.maxSwapOffset ∧ (s.pte v).frame = some f

theorem Inv.card_resident (h : Inv pmm Rep s ps) : (s.resident pmm).card = ps.length := by
  have hset : s.resident pmm = ps.toFinset := by
    ext f
    unfold Sys.resident
    rw [Finset.mem_filter, List.mem_toFinset]
    constructor
    · rintro ⟨-, v, -, hf⟩
      exact (h.present v f hf).1
    · intro hf
      obtain ⟨v, hv⟩ := h.mapped f hf
      have hbound := h.bound v (Pte.ne_zero_of_frame hv)
      exact ⟨(h.pool f hf).1, v, by omega, hv⟩
  rw [hset, List.toFinset_card_of_nodup h.nodup]

/-- An address of an area, when the frames that are free or can be made free are enough for its page and the tables of
this page. -/
def Sys.Usable (pmm : PageAllocator) (s : Sys μ) (va : Nat) : Prop :=
  findVma s.mmap va ≠ none ∧ s.missing (vpn va) < s.free.card + (s.resident pmm).card

/-- The bytes of the address space that are known. -/
def Sys.view (s : Sys μ) (va : Nat) : Option UInt8 := (s.content (va / pgSize)).map fun bytes => bytes (va % pgSize)

/-- A load or a store that returns. -/
inductive Step (pmm : PageAllocator) (sm : SwapManager μ) (s : Sys μ) : Access Nat UInt8 → Sys μ → Prop where
  | load (va : Nat) (x : UInt8) (t : Sys μ) : s.Usable pmm va →
      Returns (fun bound => load pmm sm bound s va) (x, t) → Step pmm sm s (Access.read va x) t
  | store (va : Nat) (x : UInt8) (t : Sys μ) : s.Usable pmm va →
      Returns (fun bound => store pmm sm bound s va x) t → Step pmm sm s (Access.write va x) t

theorem Inv.found (hlaw : Lawful sm Rep) (hpick : Picks pmm) (h : Inv pmm Rep s ps) {va : Nat} {flag : UInt64}
    (hflag : flag = pteR ∨ flag = pteW) (hva : s.Usable pmm va) :
    Ends (fun bound => withFrame pmm sm bound s va flag) fun r => Found pmm Rep s va r ∧ vpn va = va / pgSize := by
  obtain ⟨hsome, hroom⟩ := hva
  obtain ⟨vma, hvma⟩ := Option.ne_none_iff_exists'.1 hsome
  rw [h.card_resident] at hroom
  exact (withFrame_spec hlaw hpick h hflag hvma hroom).mono fun r hr => ⟨hr, (h.page_of_area hvma).1⟩

theorem load_spec (hlaw : Lawful sm Rep) (hpick : Picks pmm) (h : Inv pmm Rep s ps) {va : Nat}
    (hva : s.Usable pmm va) : Ends (fun bound => load pmm sm bound s va) fun r =>
      (∃ qs, Inv pmm Rep r.2 qs) ∧ Below s.view r.2.view ∧ r.2.view va = some r.1 := by
  refine (h.found hlaw hpick (Or.inl rfl) hva).bind fun r hr => ?_
  obtain ⟨hfound, hvpn⟩ := hr
  refine Ends.of_done (fun _ => rfl) ⟨hfound.inv, fun a y ha => ?_, ?_⟩
  · obtain ⟨bytes, hbytes, rfl⟩ := Option.map_eq_some_iff.1 ha
    exact Option.map_eq_some_iff.2 ⟨bytes, hfound.content _ _ hbytes, rfl⟩
  · have hcontent := content_frame hfound.frame
    rw [hvpn] at hcontent
    exact Option.map_eq_some_iff.2 ⟨_, hcontent, rfl⟩

theorem store_spec (hlaw : Lawful sm Rep) (hpick : Picks pmm) (h : Inv pmm Rep s ps) {va : Nat} (x : UInt8)
    (hva : s.Usable pmm va) : Ends (fun bound => store pmm sm bound s va x) fun t =>
      (∃ qs, Inv pmm Rep t qs) ∧ Below (Function.update s.view va (some x)) t.view := by
  refine (h.found hlaw hpick (Or.inr rfl) hva).bind fun r hr => ?_
  obtain ⟨hfound, hvpn⟩ := hr
  obtain ⟨qs, hinv⟩ := hfound.inv
  have hframe := hfound.frame
  rw [hvpn] at hframe
  have hnew : (r.2.withBytes r.1 (Function.update (r.2.mem r.1) (va % pgSize) x)).content (va / pgSize) =
      some (Function.update (r.2.mem r.1) (va % pgSize) x) := by
    have hcontent := content_frame (s := r.2.withBytes r.1 (Function.update (r.2.mem r.1) (va % pgSize) x)) hframe
    rw [withBytes_mem] at hcontent
    exact hcontent
  refine Ends.of_done (a := r.2.withBytes r.1 (Function.update (r.2.mem r.1) (va % pgSize) x)) (fun _ => rfl)
    ⟨⟨qs, hinv.withBytes r.1 _⟩, fun a y ha => ?_⟩
  by_cases hpage : a / pgSize = va / pgSize
  · -- the page of the store: one byte of it is new
    refine Option.map_eq_some_iff.2 ⟨_, (congrArg _ hpage).trans hnew, ?_⟩
    by_cases hsame : a = va
    · rw [hsame, Function.update_self] at ha
      rw [hsame, Function.update_self]
      exact Option.some.inj ha
    · rw [Function.update_of_ne hsame] at ha
      obtain ⟨bytes, hbytes, hy⟩ := Option.map_eq_some_iff.1 ha
      have hold := hfound.content _ _ hbytes
      rw [hpage, content_frame hframe] at hold
      have hoffset : a % pgSize ≠ va % pgSize := by
        intro heq
        have hdiv := Nat.div_add_mod a pgSize
        rw [hpage, heq, Nat.div_add_mod] at hdiv
        exact hsame hdiv.symm
      rw [Function.update_of_ne hoffset, Option.some.inj hold]
      exact hy
  · have hne : a ≠ va := fun heq => hpage (by rw [heq])
    rw [Function.update_of_ne hne] at ha
    obtain ⟨bytes, hbytes, hy⟩ := Option.map_eq_some_iff.1 ha
    have hother : (r.2.pte (a / pgSize)).frame ≠ some r.1 := fun heq => hpage (hinv.frame_unique heq hframe)
    exact Option.map_eq_some_iff.2 ⟨bytes, (withBytes_content _ hother).trans (hfound.content _ _ hbytes), hy⟩

/-- Loads and stores are those of a plain memory, whatever is swapped out and in between them. -/
theorem run_transparent (hlaw : Lawful sm Rep) (hpick : Picks pmm) (h : Inv pmm Rep s ps)
    {accesses : List (Access Nat UInt8)} (hrun : Run (Step pmm sm) s accesses t) :
    (∃ qs, Inv pmm Rep t qs) ∧ Coherent s.view accesses := by
  refine run_coherent Sys.view (fun s => ∃ ps, Inv pmm Rep s ps) (fun s c t hinv hstep => ?_) hrun ⟨ps, h⟩
  obtain ⟨qs, hinv⟩ := hinv
  cases hstep with
  | load va x _ hva hreturns =>
      obtain ⟨hnext, hbelow, hread⟩ := (load_spec hlaw hpick hinv hva).of_returns hreturns
      refine ⟨hnext, fun y hy => Option.some.inj (hread.symm.trans (hbelow va y hy)), fun a y ha => ?_⟩
      change Function.update s.view va (some x) a = some y at ha
      by_cases hsame : a = va
      · rw [hsame, Function.update_self] at ha
        rw [hsame, hread, ha]
      · rw [Function.update_of_ne hsame] at ha
        exact hbelow a y ha
  | store va x _ hva hreturns =>
      obtain ⟨hnext, hbelow⟩ := (store_spec hlaw hpick hinv x hva).of_returns hreturns
      exact ⟨hnext, trivial, hbelow⟩

end SwapMm
end TriOS
