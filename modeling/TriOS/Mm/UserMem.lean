import TriOS.Mm.MmStruct

/-!
# UserMem — the checks of user memory are exact

`user_mem_check` accepts a range exactly if a user may read, or write, every byte of it, and `copy_string` returns
the string exactly if the user may read every byte up to its end.
-/

namespace TriOS

open Intervals Outcome

/-- The areas of an address space, and the last answer of `find_vma`. -/
structure MmStruct.Ok (mm : MmStruct) : Prop where
  areas : Sorted Vma.start Vma.stop mm.mmapList
  cache : ∀ vma, mm.mmapCache = some vma → vma ∈ mm.mmapList

/-- Only the last answer of `find_vma` has changed. -/
def MmStruct.Same (mm mm' : MmStruct) : Prop :=
  mm'.mmapList = mm.mmapList ∧ mm'.mapCount = mm.mapCount ∧ mm'.Ok

/-- The area lets a user read, or write, its byte at an address. The lowest page of a stack is not written. -/
def Vma.Permits (vma : Vma) (write : Bool) (x : Nat) : Prop :=
  vma.Holds x ∧
    if write then vma.flags &&& vmWrite ≠ 0 ∧ (vma.flags &&& vmStack ≠ 0 → vma.start + pgSize ≤ x)
    else vma.flags &&& vmRead ≠ 0

/-- Every byte in `[a, b)` is in an area that permits the access. -/
def Permitted (vmas : List Vma) (write : Bool) (a b : Nat) : Prop :=
  ∀ x, a ≤ x → x < b → ∃ vma ∈ vmas, vma.Permits write x

/-- A user may access the range: it is not empty, it does not overflow, it is in the user range, and every byte
is in an area that permits the access. -/
structure Accessible (vmas : List Vma) (write : Bool) (addr len : Nat) : Prop where
  nonempty : 0 < len
  overflow : addr + len < 2 ^ 64
  range : userBase ≤ addr ∧ addr + len ≤ userTop
  bytes : Permitted vmas write addr (addr + len)

variable {mm mm' mm'' : MmStruct} {vma : Vma} {vmas : List Vma} {write ok : Bool} {addr len start stop a b x : Nat}

theorem MmStruct.Ok.refl (h : mm.Ok) : mm.Same mm := ⟨rfl, rfl, h⟩

theorem MmStruct.Same.trans (h : mm.Same mm') (h' : mm'.Same mm'') : mm.Same mm'' :=
  ⟨h'.1.trans h.1, h'.2.1.trans h.2.1, h'.2.2⟩

/-! ## find_vma -/

theorem findVma_eq_some (h : Sorted Vma.start Vma.stop vmas) :
    findVma vmas addr = some vma ↔ vma ∈ vmas ∧ vma.Holds addr :=
  h.find?_eq_some

/-- The answer is the one of a search without the last answer. -/
theorem MmStruct.Ok.findVma_eq (h : mm.Ok) (addr : Nat) :
    (mm.findVma addr).1 = TriOS.findVma mm.mmapList addr ∧ mm.Same (mm.findVma addr).2 := by
  have hanswer : (mm.mmapCache.filter fun vma => vma.Holds addr).or (TriOS.findVma mm.mmapList addr) =
      TriOS.findVma mm.mmapList addr := by
    cases hcache : mm.mmapCache with
    | none => rfl
    | some vma =>
        by_cases hholds : vma.Holds addr
        · rw [(findVma_eq_some h.areas).2 ⟨h.cache vma hcache, hholds⟩, Option.filter_some, if_pos]
          · rfl
          · exact decide_eq_true hholds
        · rw [Option.filter_some, if_neg]
          · rfl
          · simpa using hholds
  unfold MmStruct.findVma
  rw [hanswer]
  cases hfind : TriOS.findVma mm.mmapList addr with
  | none => exact ⟨rfl, h.refl⟩
  | some vma =>
      refine ⟨rfl, rfl, rfl, h.areas, fun v hv => ?_⟩
      cases hv
      exact ((findVma_eq_some h.areas).1 hfind).1

/-! ## user_mem_check -/

/-- An area that permits the access to one byte permits it from there to its end. -/
theorem Vma.Permits.of_le (h : vma.Permits write a) (hle : a ≤ x) (hlt : x < vma.stop) : vma.Permits write x := by
  have hholds := h.1
  refine ⟨⟨hholds.1.trans hle, hlt⟩, ?_⟩
  have hperm := h.2
  cases write with
  | false => exact hperm
  | true =>
      refine ⟨hperm.1, fun hstack => ?_⟩
      exact (hperm.2 hstack).trans hle

/-- The first byte of a range that is permitted. -/
theorem Permitted.first (h : Permitted vmas write a b) (hlt : a < b) : ∃ vma ∈ vmas, vma.Permits write a :=
  h a (le_refl a) hlt

/-- A range that begins in an area that permits the access is permitted if the rest of it is. -/
theorem permitted_iff_rest (hvma : vma ∈ vmas) (hperm : vma.Permits write a) :
    Permitted vmas write a b ↔ Permitted vmas write vma.stop b := by
  have hstop : a < vma.stop := hperm.1.2
  constructor
  · intro h x hle hlt
    exact h x (by omega) hlt
  · intro h x hle hlt
    by_cases hin : x < vma.stop
    · exact ⟨vma, hvma, hperm.of_le hle hin⟩
    · exact h x (by omega) hlt

/-- What the loop tests of the area that holds the running start. -/
theorem permits_iff (write : Bool) (hholds : vma.Holds start) (hstart : start < userTop) :
    vma.Permits write start ↔ vma.flags &&& (if write then vmWrite else vmRead) ≠ 0 ∧
      ¬ (write = true ∧ vma.flags &&& vmStack ≠ 0 ∧ start < (vma.start + pgSize) % 2 ^ 64) := by
  have hlow : vma.start ≤ start := hholds.1
  have hword : (vma.start + pgSize) % 2 ^ 64 = vma.start + pgSize := by
    apply Nat.mod_eq_of_lt
    unfold userTop at hstart
    unfold pgSize
    omega
  unfold Vma.Permits
  rw [hword]
  cases write with
  | false => simp [hholds]
  | true =>
      simp only [hholds, true_and, if_true, not_and, not_lt]

/-- The induction is on what is left of the range: the running start grows in every round. -/
theorem userMemLoop_spec (write : Bool) (start : Nat) (h : mm.Ok) (hstop : stop ≤ userTop) :
    ∃ ok mm', (∀ bound, stop - start < bound → userMemLoop write bound mm start stop = done (ok, mm')) ∧
      mm.Same mm' ∧ (ok = true ↔ Permitted mm.mmapList write start stop) := by
  induction hleft : stop - start using Nat.strong_induction_on generalizing mm start with
  | _ left ih =>
      have hround : ∀ {r}, (∀ bound, left - 1 < bound ∨ left = 0 →
          userMemLoop write (bound + 1) mm start stop = r) →
          ∀ bound, left < bound → userMemLoop write bound mm start stop = r := by
        intro r hr bound hbound
        obtain ⟨n, rfl⟩ := Nat.exists_eq_add_of_lt hbound
        exact hr (left + n) (by omega)
      by_cases hlt : start < stop
      · obtain ⟨hfind, hsame⟩ := h.findVma_eq start
        -- no area other than the one that is found holds the start
        have honly : ∀ v ∈ mm.mmapList, v.Permits write start → TriOS.findVma mm.mmapList start = some v :=
          fun v hv hperm => (findVma_eq_some h.areas).2 ⟨hv, hperm.1⟩
        cases hvma : TriOS.findVma mm.mmapList start with
        | none =>
            rw [hvma] at hfind
            refine ⟨false, (mm.findVma start).2, hround fun bound _ => ?_, hsame, ?_⟩
            · unfold userMemLoop
              rw [if_pos hlt, ← Prod.mk.eta (p := mm.findVma start), hfind]
              rfl
            · simp only [Bool.false_eq_true, false_iff]
              intro hall
              obtain ⟨v, hv, hperm⟩ := hall.first hlt
              rw [honly v hv hperm] at hvma
              cases hvma
        | some vma =>
            rw [hvma] at hfind
            obtain ⟨hmem, hholds⟩ := (findVma_eq_some h.areas).1 hvma
            have hlow : vma.start ≤ start := hholds.1
            have hhigh : start < vma.stop := hholds.2
            have hpermits := permits_iff write hholds (lt_of_lt_of_le hlt hstop)
            have hstep : ∀ bound, userMemLoop write (bound + 1) mm start stop =
                if vma.flags &&& (if write then vmWrite else vmRead) = 0 then
                  done (false, (mm.findVma start).2)
                else if write = true ∧ vma.flags &&& vmStack ≠ 0 ∧ start < (vma.start + pgSize) % 2 ^ 64 then
                  done (false, (mm.findVma start).2)
                else userMemLoop write bound (mm.findVma start).2 vma.stop stop := by
              intro bound
              rw [userMemLoop, if_pos hlt, ← Prod.mk.eta (p := mm.findVma start), hfind]
              dsimp only
              rw [if_neg (Nat.not_lt.2 hlow)]
              rfl
            by_cases hperm : vma.Permits write start
            · obtain ⟨hflags, hstack⟩ := hpermits.1 hperm
              obtain ⟨ok, mm', hloop, hsame', hok⟩ := ih (stop - vma.stop) (by omega) _ hsame.2.2 rfl
              refine ⟨ok, mm', hround fun bound hbound => ?_, hsame.trans hsame', ?_⟩
              · rw [hstep, if_neg hflags, if_neg hstack]
                exact hloop bound (by omega)
              · rw [hok, hsame.1]
                exact (permitted_iff_rest hmem hperm).symm
            · refine ⟨false, (mm.findVma start).2, hround fun bound _ => ?_, hsame, ?_⟩
              · rw [hstep]
                by_cases hflags : vma.flags &&& (if write then vmWrite else vmRead) = 0
                · rw [if_pos hflags]
                · rw [if_neg hflags, if_pos]
                  by_contra hstack
                  exact hperm (hpermits.2 ⟨hflags, hstack⟩)
              · simp only [Bool.false_eq_true, false_iff]
                intro hall
                obtain ⟨v, hv, hperm'⟩ := hall.first hlt
                rw [honly v hv hperm'] at hvma
                cases hvma
                exact hperm hperm'
      · refine ⟨true, mm, hround fun bound _ => ?_, h.refl, ?_⟩
        · rw [userMemLoop, if_neg hlt]
          rfl
        · simp only [true_iff]
          intro x hle hltx
          omega

theorem userMemCheck_spec (write : Bool) (h : mm.Ok) (haddr : addr < 2 ^ 64) (hlen : len < 2 ^ 64) :
    ∃ ok mm', (∀ bound, userTop ≤ bound → userMemCheck bound (some mm) addr len write = done (ok, some mm')) ∧
      mm.Same mm' ∧ (ok = true ↔ Accessible mm.mmapList write addr len) := by
  by_cases haccess : UserAccess addr ((addr + len) % 2 ^ 64)
  · obtain ⟨hbase, hlt, htop⟩ := haccess
    -- a sum that wraps around would be below its first part
    have hsum : addr + len < 2 ^ 64 := by omega
    obtain ⟨ok, mm', hloop, hsame, hok⟩ := userMemLoop_spec write addr h htop
    refine ⟨ok, mm', fun bound hbound => ?_, hsame, ?_⟩
    · unfold userMemCheck
      dsimp only
      rw [if_neg (not_not.2 ⟨hbase, hlt, htop⟩), hloop bound]
      · rfl
      · unfold userBase at hbase
        omega
    · rw [Nat.mod_eq_of_lt hsum] at hlt htop hok
      exact hok.trans ⟨fun hbytes => ⟨by omega, hsum, ⟨hbase, htop⟩, hbytes⟩, Accessible.bytes⟩
  · refine ⟨false, mm, fun bound _ => ?_, h.refl, ?_⟩
    · unfold userMemCheck
      dsimp only
      rw [if_pos haccess]
      rfl
    · simp only [Bool.false_eq_true, false_iff]
      rintro ⟨hpos, hsum, ⟨hbase, htop⟩, -⟩
      apply haccess
      rw [Nat.mod_eq_of_lt hsum]
      exact ⟨hbase, by omega, htop⟩

/-- `user_mem_check` returns, and says exactly whether a user may access the range. It leaves the areas as they
are, and `find_vma` answers as without its cache, before and after. -/
theorem user_mem_check_exact (h : mm.Ok) (haddr : addr < 2 ^ 64) (hlen : len < 2 ^ 64) :
    ∃ ok mm', Returns (fun bound => userMemCheck bound (some mm) addr len write) (ok, some mm') ∧
      (ok = true ↔ Accessible mm.mmapList write addr len) ∧ mm'.mmapList = mm.mmapList ∧ mm'.Ok ∧
      ∀ x, (mm.findVma x).1 = TriOS.findVma mm.mmapList x ∧ (mm'.findVma x).1 = TriOS.findVma mm.mmapList x := by
  obtain ⟨ok, mm', hcheck, hsame, hok⟩ := userMemCheck_spec write h haddr hlen
  refine ⟨ok, mm', ⟨userTop, hcheck⟩, hok, hsame.1, hsame.2.2, fun x => ⟨(h.findVma_eq x).1, ?_⟩⟩
  rw [(hsame.2.2.findVma_eq x).1, hsame.1]

/-- A program of one page, and above it its stack. -/
def smallMm : MmStruct :=
  { mmapList := [⟨0x200000, 0x201000, vmRead⟩, ⟨0x201000, 0x204000, vmRead ||| vmWrite ||| vmStack⟩]
    mmapCache := none
    mapCount := 2 }

theorem smallMm_ok : smallMm.Ok :=
  ⟨⟨by decide, by decide⟩, fun _ hcache => by cases hcache⟩

/-- The range goes over the end of the program, and the lowest page of the stack. -/
theorem user_mem_check_exact_smallMm :
    ∃ ok mm', Returns (fun bound => userMemCheck bound (some smallMm) 0x200FFF 0x2000 false) (ok, some mm') ∧
      (ok = true ↔ Accessible smallMm.mmapList false 0x200FFF 0x2000) ∧ mm'.mmapList = smallMm.mmapList ∧ mm'.Ok ∧
      ∀ x, (smallMm.findVma x).1 = TriOS.findVma smallMm.mmapList x ∧
        (mm'.findVma x).1 = TriOS.findVma smallMm.mmapList x :=
  user_mem_check_exact smallMm_ok (by decide) (by decide)

/-! ## copy_string -/

/-- A string of `n` bytes at an address, with its end among the first `maxn` bytes, that the user may read. -/
structure StringAt (vmas : List Vma) (mem : Nat → UInt8) (src maxn n : Nat) : Prop where
  lt : n < maxn
  nul : mem (src + n) = 0
  first : ∀ i, i < n → mem (src + i) ≠ 0
  range : userBase ≤ src ∧ src + n < userTop
  bytes : Permitted vmas false src (src + n + 1)

/-- The areas begin and end at pages. -/
def Aligned (vmas : List Vma) : Prop :=
  ∀ vma ∈ vmas, vma.start % pgSize = 0 ∧ vma.stop % pgSize = 0

instance (vmas : List Vma) : Decidable (Aligned vmas) :=
  inferInstanceAs (Decidable (∀ vma ∈ vmas, _ ∧ _))

/-- What a run of the loop does from the byte `at_` of the buffer on. -/
structure CopiesString (vmas : List Vma) (mem : Nat → UInt8) (at_ src maxn : Nat) (c : StringCopy) (ok : Bool)
    (c' : StringCopy) : Prop where
  exact : ok = true ↔ ∃ n, StringAt vmas mem src maxn n
  dst : ∀ n, StringAt vmas mem src maxn n → c'.dst = memcpyTo c.dst at_ mem src (n + 1)
  outside : ∀ i, i < at_ ∨ at_ + maxn ≤ i → c'.dst i = c.dst i
  reads : ∀ r ∈ c'.reads, r ∈ c.reads ∨ Accessible vmas false r.1 r.2

variable {mem : Nat → UInt8} {src maxn part n at_ : Nat} {c c' : StringCopy} {dst : Nat → UInt8}

theorem strnlen_le : strnlen mem src part ≤ part := by
  unfold strnlen
  calc (List.range part).findIdx (fun i => decide (mem (src + i) = 0)) ≤ (List.range part).length :=
        List.findIdx_le_length
    _ = part := List.length_range

theorem strnlen_before (h : n < strnlen mem src part) : mem (src + n) ≠ 0 := by
  unfold strnlen at h
  have hnot := List.not_of_lt_findIdx h
  simpa using hnot

theorem strnlen_nul (h : strnlen mem src part < part) : mem (src + strnlen mem src part) = 0 := by
  unfold strnlen at h ⊢
  have hlen : (List.range part).findIdx (fun i => decide (mem (src + i) = 0)) < (List.range part).length := by
    simpa using h
  have hp := List.findIdx_getElem (w := hlen)
  simpa using hp

theorem Accessible.front (h : Accessible vmas write src part) (hpos : 0 < n) (hle : n ≤ part) :
    Accessible vmas write src n := by
  have hover := h.overflow
  have htop := h.range.2
  exact ⟨hpos, by omega, ⟨h.range.1, by omega⟩, fun x hlow hlt => h.bytes x hlow (by omega)⟩

/-- A fragment that ends at the end of a page, or before it, can be read if its first byte can. -/
theorem StringAt.fragment (h : StringAt vmas mem src maxn n) (haligned : Aligned vmas)
    (hpage : (src + part) % pgSize = 0) (hpart : 0 < part ∧ part ≤ pgSize) :
    Accessible vmas false src (min part maxn) := by
  have hlt := h.lt
  obtain ⟨hbase, htop⟩ := h.range
  obtain ⟨vma, hvma, ⟨hlow, hhigh⟩, hread⟩ := h.bytes src (le_refl src) (by omega)
  have hends := haligned vma hvma
  unfold pgSize at hpage hpart hends
  unfold userTop at htop
  have hfit : src + part ≤ vma.stop := by omega
  refine ⟨by omega, by omega, ⟨hbase, ?_⟩, fun x hx hxlt => ⟨vma, hvma, ⟨by omega, by omega⟩, hread⟩⟩
  unfold userTop
  omega

theorem StringAt.unique {m : Nat} (h : StringAt vmas mem src maxn n) (h' : StringAt vmas mem src maxn m) : n = m := by
  rcases Nat.lt_trichotomy n m with hlt | heq | hlt
  · exact absurd h.nul (h'.first n hlt)
  · exact heq
  · exact absurd h'.nul (h.first m hlt)

/-- The string, seen from the next fragment. -/
theorem stringAt_rest (hacc : Accessible vmas false src part) (hnul : ∀ i, i < part → mem (src + i) ≠ 0) :
    StringAt vmas mem src maxn n ↔ part ≤ n ∧ StringAt vmas mem (src + part) (maxn - part) (n - part) := by
  obtain ⟨hbase, htop⟩ := hacc.range
  constructor
  · intro h
    have hle : part ≤ n := by
      by_contra hlt
      exact hnul n (Nat.not_le.1 hlt) h.nul
    have hlt := h.lt
    have hrange := h.range.2
    have hsum : src + part + (n - part) = src + n := by omega
    refine ⟨hle, by omega, ?_, fun i hi => ?_, ⟨by omega, by omega⟩, fun x hx hxlt => ?_⟩
    · rw [hsum]
      exact h.nul
    · rw [Nat.add_assoc]
      exact h.first (part + i) (by omega)
    · exact h.bytes x (by omega) (by omega)
  · rintro ⟨hle, h⟩
    have hlt := h.lt
    have hrange := h.range.2
    have hsum : src + part + (n - part) = src + n := by omega
    refine ⟨by omega, ?_, fun i hi => ?_, ⟨hbase, by omega⟩, fun x hx hxlt => ?_⟩
    · rw [← hsum]
      exact h.nul
    · by_cases hin : i < part
      · exact hnul i hin
      · have hfirst := h.first (i - part) (by omega)
        have hsum' : src + part + (i - part) = src + i := by omega
        rwa [hsum'] at hfirst
    · by_cases hin : x < src + part
      · exact hacc.bytes x hx hin
      · exact h.bytes x (Nat.not_lt.1 hin) (by omega)

theorem memcpyTo_memcpyTo (hle : part ≤ n) :
    memcpyTo (memcpyTo dst at_ mem src part) (at_ + part) mem (src + part) (n - part) =
      memcpyTo dst at_ mem src n := by
  funext i
  unfold memcpyTo
  by_cases hlow : at_ ≤ i
  · by_cases hfirst : i < at_ + part
    · rw [if_neg (by omega), if_pos ⟨hlow, hfirst⟩, if_pos ⟨hlow, by omega⟩]
    · by_cases hlast : i < at_ + n
      · rw [if_pos (by omega), if_pos ⟨hlow, hlast⟩]
        congr 1
        omega
      · rw [if_neg (by omega), if_neg (by omega), if_neg (by omega)]
  · rw [if_neg (by omega), if_neg (by omega), if_neg (by omega)]

theorem memcpyTo_outside {i : Nat} (h : i < at_ ∨ at_ + n ≤ i) : memcpyTo dst at_ mem src n i = dst i := by
  unfold memcpyTo
  rw [if_neg]
  omega

/-- The loop of `copy_string`. The induction is on the room in the buffer. -/
theorem copyStringLoop_spec (mem : Nat → UInt8) (at_ src : Nat) (h : mm.Ok) (haligned : Aligned mm.mmapList) (hsrc : src < 2 ^ 64)
    (hmaxn : maxn < 2 ^ 64) (hpage : (src + part) % pgSize = 0) (hpart : 0 < part ∧ part ≤ pgSize)
    (hc : c.mm = some mm) :
    ∃ ok c', (∀ bound, userTop + maxn < bound → copyStringLoop mem bound c at_ src maxn part = done (ok, c')) ∧
      (∃ mm', c'.mm = some mm' ∧ mm.Same mm') ∧ CopiesString mm.mmapList mem at_ src maxn c ok c' := by
  induction maxn using Nat.strong_induction_on generalizing mm src part c at_ with
  | _ maxn ih =>
      have hclamp : (if maxn < part then maxn else part) = min part maxn := by
        split <;> omega
      have hsize : min part maxn < 2 ^ 64 := by omega
      obtain ⟨ok, mm', hcheck, hsame, hok⟩ := userMemCheck_spec false h hsrc hsize
      -- a round, once its check has been made
      have hround : ∀ bound, userTop ≤ bound → copyStringLoop mem (bound + 1) c at_ src maxn part =
          if ok = false then done (false, { c with mm := some mm' })
          else
            let alen := strnlen mem src (min part maxn)
            let c := StringCopy.scan { c with mm := some mm' } src (min part maxn) alen
            if alen < min part maxn then done (true, c.copy mem at_ src (alen + 1))
            else if min part maxn = maxn then done (false, c)
            else copyStringLoop mem bound (c.copy mem at_ src (min part maxn)) (at_ + min part maxn)
              ((src + min part maxn) % 2 ^ 64) (maxn - min part maxn) pgSize := by
        intro bound hbound
        rw [copyStringLoop]
        dsimp only
        rw [hclamp, hc, hcheck bound hbound]
        rfl
      have hfuel : ∀ {r}, (∀ bound, userTop ≤ bound → userTop + maxn ≤ bound →
          copyStringLoop mem (bound + 1) c at_ src maxn part = r) →
          ∀ bound, userTop + maxn < bound → copyStringLoop mem bound c at_ src maxn part = r := by
        intro r hr bound hbound
        obtain ⟨m, rfl⟩ := Nat.exists_eq_add_of_lt hbound
        exact hr (userTop + maxn + m) (by omega) (by omega)
      cases ok with
      | false =>
          refine ⟨false, { c with mm := some mm' }, hfuel fun bound hb _ => (hround bound hb).trans (if_pos rfl),
            ⟨mm', rfl, hsame⟩, ?_, fun n hn => ?_, fun _ _ => rfl, fun r hr => Or.inl hr⟩
          · simp only [Bool.false_eq_true, false_iff]
            rintro ⟨n, hn⟩
            exact Bool.false_ne_true (hok.2 (hn.fragment haligned hpage hpart))
          · exact absurd (hok.2 (hn.fragment haligned hpage hpart)) Bool.false_ne_true
      | true =>
          have hacc : Accessible mm.mmapList false src (min part maxn) := hok.1 rfl
          have hpos := hacc.nonempty
          have hscan : Accessible mm.mmapList false src
              (min (strnlen mem src (min part maxn) + 1) (min part maxn)) :=
            hacc.front (by omega) (Nat.min_le_right _ _)
          by_cases hend : strnlen mem src (min part maxn) < min part maxn
          · -- the end of the string is in this fragment
            have hstring : StringAt mm.mmapList mem src maxn (strnlen mem src (min part maxn)) := by
              have htop := hacc.range.2
              exact ⟨by omega, strnlen_nul hend, fun i hi => strnlen_before hi, ⟨hacc.range.1, by omega⟩,
                fun x hx hxlt => hacc.bytes x hx (by omega)⟩
            refine ⟨true, StringCopy.copy (StringCopy.scan { c with mm := some mm' } src (min part maxn)
                (strnlen mem src (min part maxn))) mem at_ src (strnlen mem src (min part maxn) + 1),
              hfuel fun bound hb _ => ?_, ⟨mm', rfl, hsame⟩, ?_, fun n hn => ?_, fun i hi => ?_, fun r hr => ?_⟩
            · rw [hround bound hb, if_neg (by simp)]
              dsimp only
              rw [if_pos hend]
            · simp only [true_iff]
              exact ⟨_, hstring⟩
            · rw [hn.unique hstring]
              rfl
            · exact memcpyTo_outside (by omega)
            · rcases List.mem_cons.1 hr with rfl | hr
              · exact Or.inr (hacc.front (Nat.succ_pos _) hend)
              · rcases List.mem_cons.1 hr with rfl | hr
                · exact Or.inr hscan
                · exact Or.inl hr
          · have hfull : strnlen mem src (min part maxn) = min part maxn :=
              Nat.le_antisymm strnlen_le (Nat.not_lt.1 hend)
            have hnul : ∀ i, i < min part maxn → mem (src + i) ≠ 0 := fun i hi => strnlen_before (hfull.symm ▸ hi)
            by_cases hlast : min part maxn = maxn
            · -- the room is used up
              have hnone : ∀ n, ¬ StringAt mm.mmapList mem src maxn n := by
                intro n hn
                have hlt := hn.lt
                exact hnul n (by omega) hn.nul
              refine ⟨false, StringCopy.scan { c with mm := some mm' } src (min part maxn)
                (strnlen mem src (min part maxn)), hfuel fun bound hb _ => ?_, ⟨mm', rfl, hsame⟩, ?_,
                fun n hn => absurd hn (hnone n), fun _ _ => rfl, fun r hr => ?_⟩
              · rw [hround bound hb, if_neg (by simp)]
                dsimp only
                rw [if_neg hend, if_pos hlast]
              · simp only [Bool.false_eq_true, false_iff]
                rintro ⟨n, hn⟩
                exact hnone n hn
              · rcases List.mem_cons.1 hr with rfl | hr
                · exact Or.inr hscan
                · exact Or.inl hr
            · have hmin : min part maxn = part := by omega
              rw [hmin] at hacc hnul hscan hend hfull hround
              have htop := hacc.range.2
              unfold userTop at htop
              have hword : (src + part) % 2 ^ 64 = src + part := Nat.mod_eq_of_lt (by omega)
              have hpage' : (src + part + pgSize) % pgSize = 0 := by
                rw [Nat.add_mod_right]
                exact hpage
              have hareas := hsame.1
              obtain ⟨ok, c', hloop, ⟨mm'', hc', hsame'⟩, hcopies⟩ := ih (maxn - part) (by omega)
                (at_ + part) (src + part)
                (c := StringCopy.copy (StringCopy.scan { c with mm := some mm' } src part (strnlen mem src part))
                  mem at_ src part) hsame.2.2 (hareas.symm ▸ haligned) (by omega) (by omega) hpage'
                ⟨by decide, le_refl _⟩ rfl
              rw [hareas] at hcopies
              refine ⟨ok, c', hfuel fun bound hb hb' => ?_, ⟨mm'', hc', hsame.trans hsame'⟩, ?_, fun n hn => ?_,
                fun i hi => ?_, fun r hr => ?_⟩
              · rw [hround bound hb, if_neg (by simp)]
                dsimp only
                rw [if_neg hend, if_neg (by omega), hword]
                exact hloop bound (by omega)
              · rw [hcopies.exact]
                constructor
                · rintro ⟨n, hn⟩
                  refine ⟨part + n, (stringAt_rest hacc hnul).2 ⟨Nat.le_add_right _ _, ?_⟩⟩
                  rwa [Nat.add_sub_cancel_left]
                · rintro ⟨n, hn⟩
                  exact ⟨n - part, ((stringAt_rest hacc hnul).1 hn).2⟩
              · obtain ⟨hle, hn'⟩ := (stringAt_rest hacc hnul).1 hn
                rw [hcopies.dst (n - part) hn']
                have hsub : n - part + 1 = n + 1 - part := by omega
                rw [hsub]
                exact memcpyTo_memcpyTo (by omega)
              · rw [hcopies.outside i (by omega)]
                exact memcpyTo_outside (by omega)
              · rcases hcopies.reads r hr with hr | hr
                · rcases List.mem_cons.1 hr with rfl | hr
                  · exact Or.inr hacc
                  · rcases List.mem_cons.1 hr with rfl | hr
                    · exact Or.inr hscan
                    · exact Or.inl hr
                · exact Or.inr hr

/-- The first fragment ends at the end of the page of the source. -/
theorem firstPart_eq (hsrc : src < 2 ^ 64) :
    (roundDown ((src + pgSize) % 2 ^ 64) pgSize + 2 ^ 64 - src) % 2 ^ 64 = pgSize - src % pgSize := by
  unfold roundDown pgSize
  by_cases hlast : src + 4096 < 2 ^ 64
  · rw [Nat.mod_eq_of_lt hlast]
    omega
  · have hwrap : (src + 4096) % 2 ^ 64 = src + 4096 - 2 ^ 64 := by omega
    rw [hwrap]
    omega

/-- `copy_string` returns, and says exactly whether there is a string with its end among the first `maxn` bytes
that the user may read; the buffer then holds the string. It writes no more than `maxn` bytes, and every range of
user memory that it reads is one that `user_mem_check` accepts. -/
theorem copy_string_exact (h : mm.Ok) (haligned : Aligned mm.mmapList) (hsrc : src < 2 ^ 64)
    (hmaxn : maxn < 2 ^ 64) :
    ∃ ok c', Returns (fun bound => copyString mem bound (some mm) dst src maxn) (ok, c') ∧
      (ok = true ↔ ∃ n, StringAt mm.mmapList mem src maxn n) ∧
      (∀ n, StringAt mm.mmapList mem src maxn n → ∀ i, c'.dst i = if i ≤ n then mem (src + i) else dst i) ∧
      (∀ i, maxn ≤ i → c'.dst i = dst i) ∧ ∀ r ∈ c'.reads, Accessible mm.mmapList false r.1 r.2 := by
  have hmod : src % pgSize < pgSize := Nat.mod_lt _ (by decide)
  have hpage : (src + (pgSize - src % pgSize)) % pgSize = 0 := by
    unfold pgSize at hmod ⊢
    omega
  have hpart : 0 < pgSize - src % pgSize ∧ pgSize - src % pgSize ≤ pgSize := by omega
  obtain ⟨ok, c', hloop, -, hcopies⟩ := copyStringLoop_spec mem 0 src
    (c := { mm := some mm, dst := dst, reads := [] }) h haligned hsrc hmaxn hpage hpart rfl
  refine ⟨ok, c', ⟨userTop + maxn + 1, fun bound hbound => ?_⟩, hcopies.exact, fun n hn i => ?_, fun i hi => ?_,
    fun r hr => ?_⟩
  · unfold copyString
    rw [firstPart_eq hsrc]
    exact hloop bound (by omega)
  · rw [hcopies.dst n hn]
    unfold memcpyTo
    by_cases hin : i ≤ n
    · rw [if_pos ⟨Nat.zero_le i, by omega⟩, if_pos hin, Nat.sub_zero]
    · rw [if_neg (by omega), if_neg hin]
  · exact hcopies.outside i (Or.inr (by omega))
  · rcases hcopies.reads r hr with hold | hacc
    · cases hold
    · exact hacc

/-- The string ends in the last byte of the program. -/
theorem copy_string_exact_smallMm :
    ∃ ok c', Returns (fun bound => copyString (fun x => if x = 0x200FFF then 0 else 65) bound (some smallMm)
        (fun _ => 0) 0x200FFE 8) (ok, c') ∧
      (ok = true ↔ ∃ n, StringAt smallMm.mmapList (fun x => if x = 0x200FFF then 0 else 65) 0x200FFE 8 n) ∧
      (∀ n, StringAt smallMm.mmapList (fun x => if x = 0x200FFF then 0 else 65) 0x200FFE 8 n →
        ∀ i, c'.dst i = if i ≤ n then (if 0x200FFE + i = 0x200FFF then 0 else 65) else 0) ∧
      (∀ i, 8 ≤ i → c'.dst i = 0) ∧ ∀ r ∈ c'.reads, Accessible smallMm.mmapList false r.1 r.2 :=
  copy_string_exact smallMm_ok (by decide) (by decide) (by decide)

/-- An area below the user range. -/
def lowMm : MmStruct :=
  { mmapList := [⟨0, 0x1000, vmRead⟩], mmapCache := none, mapCount := 1 }

/-- A string in an area that can be read, but below `USERBASE`, is refused. -/
theorem copy_string_low :
    ¬ ∀ (mm : MmStruct) (mem dst : Nat → UInt8) (src maxn : Nat) (ok : Bool) (c : StringCopy), mm.Ok →
      Aligned mm.mmapList → src < 2 ^ 64 → maxn < 2 ^ 64 →
      Returns (fun bound => copyString mem bound (some mm) dst src maxn) (ok, c) →
      (ok = true ↔ ∃ n, n < maxn ∧ mem (src + n) = 0 ∧ Permitted mm.mmapList false src (src + n + 1)) := by
  intro hclaim
  have hreturns : Returns (fun bound => copyString (fun _ => 0) bound (some lowMm) (fun _ => 0) 0 8)
      (false, { mm := some lowMm, dst := fun _ => 0, reads := [] }) := by
    refine ⟨1, fun bound hbound => ?_⟩
    obtain ⟨n, rfl⟩ := Nat.exists_eq_add_of_le' hbound
    rfl
  have hok := hclaim lowMm (fun _ => 0) (fun _ => 0) 0 8 false _
    ⟨⟨by decide, by decide⟩, fun _ hcache => by cases hcache⟩ (by decide) (by decide) (by decide) hreturns
  refine Bool.false_ne_true (hok.2 ⟨0, by decide, rfl, fun x _ hx => ?_⟩)
  have hzero : x = 0 := by omega
  subst hzero
  exact ⟨⟨0, 0x1000, vmRead⟩, List.mem_singleton_self _, ⟨by decide, by decide⟩, by decide⟩

end TriOS
