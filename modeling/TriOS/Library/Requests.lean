import TriOS.Library.Outcome

/-!
# Requests — code that asks for resources one after the other

A computation serves a list of requests in order. Whether a request is granted depends on the requests
before it. `Serves` says that the computation ends well when all are granted, and otherwise that it stops at
the first one that is not, in the way that `bad` describes.
-/

namespace Requests

open Outcome

universe u

variable {ρ : Type*} {α β : Type u}

/-- All requests of the list are granted, after those of `met`. -/
def Granted (grant : List ρ → ρ → Prop) (met : List ρ) : List ρ → Prop
  | [] => True
  | r :: rs => grant met r ∧ Granted grant (met ++ [r]) rs

/-- `x` serves the requests `rs` after `met`. -/
def Serves (grant : List ρ → ρ → Prop) (ok : List ρ → α → Prop) (bad : List ρ → ρ → Outcome α → Prop)
    (met rs : List ρ) (x : Outcome α) : Prop :=
  (Granted grant met rs ∧ ∃ a, x = done a ∧ ok (met ++ rs) a) ∨
    ∃ pre r post, rs = pre ++ r :: post ∧ Granted grant met pre ∧ ¬ grant (met ++ pre) r ∧
      bad (met ++ pre) r x

variable {grant : List ρ → ρ → Prop} {ok : List ρ → α → Prop} {bad : List ρ → ρ → Outcome α → Prop}
  {met rs rs' pre pre' post post' : List ρ} {r r' : ρ} {x : Outcome α}

theorem granted_append : Granted grant met (rs ++ rs') ↔
    Granted grant met rs ∧ Granted grant (met ++ rs) rs' := by
  induction rs generalizing met with
  | nil => simp [Granted]
  | cons r rs ih => simp [Granted, ih, and_assoc]

/-- A list that is granted has no first request that is not. -/
theorem Granted.not_split (h : Granted grant met rs) (hsplit : rs = pre ++ r :: post) :
    grant (met ++ pre) r := by
  rw [hsplit, granted_append] at h
  exact h.2.1

/-- The first request that is not granted is determined by the list. -/
theorem first_unique (hpre : Granted grant met pre) (hr : ¬ grant (met ++ pre) r)
    (hpre' : Granted grant met pre') (hr' : ¬ grant (met ++ pre') r')
    (hsplit : pre ++ r :: post = pre' ++ r' :: post') : pre = pre' ∧ r = r' := by
  rcases List.append_eq_append_iff.1 hsplit with ⟨as, rfl, htail⟩ | ⟨bs, rfl, htail⟩
  · cases as with
    | nil =>
        rw [List.nil_append] at htail
        exact ⟨by simp, (List.cons.inj htail).1⟩
    | cons a as =>
        obtain ⟨rfl, -⟩ := List.cons.inj htail
        exact absurd (hpre'.not_split rfl) hr
  · cases bs with
    | nil =>
        rw [List.nil_append] at htail
        exact ⟨by simp, (List.cons.inj htail).1.symm⟩
    | cons b bs =>
        obtain ⟨rfl, -⟩ := List.cons.inj htail
        exact absurd (hpre.not_split rfl) hr'

/-- Nothing is asked for. -/
theorem Serves.nil {a : α} (hx : x = done a) (h : ok met a) : Serves grant ok bad met [] x :=
  Or.inl ⟨trivial, a, hx, by simpa using h⟩

/-- The first request is not granted. -/
theorem Serves.stop (hr : ¬ grant met r) (h : bad met r x) : Serves grant ok bad met (r :: rs) x :=
  Or.inr ⟨[], r, rs, rfl, trivial, by simpa using hr, by simpa using h⟩

/-- The first request is granted. -/
theorem Serves.cons (hr : grant met r) (h : Serves grant ok bad (met ++ [r]) rs x) :
    Serves grant ok bad met (r :: rs) x := by
  rcases h with ⟨hrs, a, hx, hok⟩ | ⟨pre, r', post, rfl, hpre, hr', hbad⟩
  · exact Or.inl ⟨⟨hr, hrs⟩, a, hx, by simpa using hok⟩
  · exact Or.inr ⟨r :: pre, r', post, rfl, ⟨hr, hpre⟩, by simpa using hr', by simpa using hbad⟩

/-- The rule of sequencing. -/
theorem Serves.bind {ok' : List ρ → β → Prop} {bad' : List ρ → ρ → Outcome β → Prop} {k : α → Outcome β}
    (h : Serves grant ok bad met rs x)
    (hk : ∀ a, ok (met ++ rs) a → Serves grant ok' bad' (met ++ rs) rs' (k a))
    (hbad : ∀ met r, bad met r x → bad' met r (x >>= k)) :
    Serves grant ok' bad' met (rs ++ rs') (x >>= k) := by
  rcases h with ⟨hrs, a, rfl, hok⟩ | ⟨pre, r, post, rfl, hpre, hr, hx⟩
  · rw [bind_done]
    rcases hk a hok with ⟨hrs', b, hb, hok'⟩ | ⟨pre, r, post, rfl, hpre, hr, hx⟩
    · exact Or.inl ⟨granted_append.2 ⟨hrs, hrs'⟩, b, hb, by rwa [← List.append_assoc]⟩
    · refine Or.inr ⟨rs ++ pre, r, post, by rw [List.append_assoc], granted_append.2 ⟨hrs, hpre⟩, ?_, ?_⟩
      · rwa [← List.append_assoc]
      · rwa [← List.append_assoc]
  · exact Or.inr ⟨pre, r, post ++ rs', by simp, hpre, hr, hbad _ _ hx⟩

theorem Serves.congr {x' : Outcome α} (h : Serves grant ok bad met rs x) (hx : x = x') :
    Serves grant ok bad met rs x' :=
  hx ▸ h

end Requests
