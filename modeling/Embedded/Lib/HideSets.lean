import Mathlib.Data.Finset.Card

/-! # Rescanning with hide sets terminates

Streams of symbols are rewritten from the front: a run of symbols whose first one names a rule is replaced
by a text, which is scanned again together with what follows. Every symbol carries a set of rules it hides,
and the symbols of the replacing text hide the rule used and what both the first and the last symbol of the
run hid. The hidden set may shrink at a run that reaches beyond the text its first symbol came from. A
stream may also be given up for a part of it, which is how the parts of a run are treated on their own.

`wellFounded_reduces`: with finitely many rules every such rewriting comes to an end. The order is the
number of rules that some symbol does not hide, then the number of symbols that have been there before the
last replacement at this level, then, by induction, the rewriting of what stands before those. -/

namespace Embedded.HideSets

open List

variable {τ ν : Type} (name : τ → ν) (hide : τ → Set ν) (rules : Finset ν)

/-- One step: `Reduces new old`. -/
inductive Reduces : List τ → List τ → Prop
  | part {old new : List τ} (hsub : new.Sublist old) (hlt : new.length < old.length) : Reduces new old
  | replace {run rest text : List τ} {first last : τ} (hfirst : (run ++ [last]).head? = some first)
      (hrule : name first ∈ rules) (hfree : name first ∉ hide first)
      (htext : ∀ t ∈ text, name first ∈ hide t ∧ hide first ∩ hide last ⊆ hide t) :
      Reduces (text ++ rest) (run ++ last :: rest)

/-- Every symbol hides all of `K`. -/
def Hides (K : Finset ν) (l : List τ) : Prop := ∀ t ∈ l, ↑K ⊆ hide t

variable {hide} {K : Finset ν}

theorem Hides.append {l m : List τ} (hl : Hides hide K l) (hm : Hides hide K m) : Hides hide K (l ++ m) := by
  exact forall_mem_append.2 ⟨hl, hm⟩

theorem Hides.sublist {l m : List τ} (hl : Hides hide K l) (h : m.Sublist l) :
    Hides hide K m := fun t ht => hl t (h.subset ht)

variable (hide) {name rules}

/-- When every symbol hides every rule, nothing is replaced and a step makes the stream shorter. -/
theorem acc_of_all (hK : rules ⊆ K) (l : List τ) (hl : Hides hide K l) : Acc (Reduces name hide rules) l := by
  induction h : l.length using Nat.strong_induction_on generalizing l with
  | _ n ih =>
    subst h
    refine ⟨_, fun y hy => ?_⟩
    cases hy with
    | part hsub hlt => exact ih _ hlt y (hl.sublist hsub) rfl
    | @replace run rest text first last hfirst hrule hfree htext => ?_
    have hmem : first ∈ run ++ last :: rest := by
      have := mem_of_mem_head? hfirst
      simp only [mem_append, mem_cons, not_mem_nil] at this ⊢
      tauto
    exact absurd (hl first hmem (Finset.mem_coe.2 (hK hrule))) hfree

variable [DecidableEq ν]

/-- The argument at one level: the streams whose symbols hide one rule more come to an end, hence so does
such a stream followed by one whose symbols hide `K`. -/
theorem acc_append
    (hmore : ∀ n ∈ rules, n ∉ K → ∀ l, Hides hide (insert n K) l → Acc (Reduces name hide rules) l)
    (rest : List τ) (hrest : Hides hide K rest) {n : ν} (hn : n ∈ rules) (hnK : n ∉ K) (front : List τ)
    (hfront : Hides hide (insert n K) front) : Acc (Reduces name hide rules) (front ++ rest) := by
  induction hlen : rest.length using Nat.strong_induction_on generalizing rest n front with
  | _ k shorter =>
  subst hlen
  have hacc := hmore n hn hnK front hfront
  induction hacc with
  | intro front _ within =>
  have hfrontK : Hides hide K front := fun t ht =>
    (Finset.coe_subset.2 (Finset.subset_insert n K)).trans (hfront t ht)
  refine ⟨_, fun y hy => ?_⟩
  generalize hx : front ++ rest = x at hy
  cases hy with
  | part hsub hlt =>
    subst hx
    obtain ⟨y1, y2, rfl, h1, h2⟩ := sublist_append_iff.1 hsub
    rcases Nat.lt_or_ge y2.length rest.length with hlt2 | hge
    · exact shorter _ hlt2 y2 (hrest.sublist h2) hn hnK y1 (hfront.sublist h1) rfl
    have hy2 : y2 = rest := h2.eq_of_length_le hge
    subst hy2
    have hlt1 : y1.length < front.length := by
      simp only [length_append] at hlt
      omega
    exact within y1 (.part h1 hlt1) (hfront.sublist h1)
  | @replace run rest' text first last hfirst hrule hfree htext => ?_
  have hfirst_mem : first ∈ run ++ [last] := mem_of_mem_head? hfirst
  -- a run inside the front is a step of the front alone
  have inside : ∀ after, front = run ++ [last] ++ after → rest' = after ++ rest →
      Acc (Reduces name hide rules) (text ++ rest') := by
    rintro after rfl rfl
    have htextK : Hides hide (insert n K) text := fun t ht m hm =>
      (htext t ht).2 ⟨hfront first (mem_append_left _ hfirst_mem) hm, hfront last (by simp) hm⟩
    rw [← append_assoc]
    have hstep : Reduces name hide rules (text ++ after) (run ++ last :: after) :=
      .replace hfirst hrule hfree htext
    refine within (text ++ after) ?_ (htextK.append (hfront.sublist (sublist_append_right _ _)))
    simpa using hstep
  have hsplit : (run ++ [last]) ++ rest' = front ++ rest := by
    rw [hx]
    simp
  rcases append_eq_append_iff.1 hsplit with ⟨after, hf, hr⟩ | ⟨taken, hf, hr⟩
  · exact inside after hf hr
  cases taken with
  | nil => exact inside [] (by simpa using hf.symm) (by simpa using hr.symm)
  | cons u us => ?_
  -- a run that reaches into the rest leaves a shorter one, and its text hides one rule more
  have hrunK : Hides hide K (run ++ [last]) := by
    rw [hf]
    exact hfrontK.append (hrest.sublist (by rw [hr]; exact sublist_append_left _ _))
  have hfirstK : name first ∉ K := fun h => hfree (hrunK first hfirst_mem (Finset.mem_coe.2 h))
  have htextK : Hides hide (insert (name first) K) text := by
    intro t ht m hm
    rcases Finset.mem_insert.1 (Finset.mem_coe.1 hm) with rfl | hm
    · exact (htext t ht).1
    exact (htext t ht).2 ⟨hrunK first hfirst_mem (Finset.mem_coe.2 hm),
      hrunK last (by simp) (Finset.mem_coe.2 hm)⟩
  have hlt : rest'.length < rest.length := by
    rw [hr]
    simp only [cons_append, length_cons, length_append]
    omega
  exact shorter _ hlt rest' (hrest.sublist (by rw [hr]; exact sublist_append_right _ _))
    hrule hfirstK text htextK rfl

variable (name rules)

/-- **Every rewriting comes to an end**, from any stream and whatever its symbols hide. -/
theorem wellFounded_reduces : WellFounded (Reduces name hide rules) := by
  -- the fewer rules are left to hide, the sooner
  have level : ∀ (K : Finset ν) (l : List τ), Hides hide K l → Acc (Reduces name hide rules) l := by
    intro K
    induction h : (rules \ K).card using Nat.strong_induction_on generalizing K with
    | _ c ih =>
      subst h
      intro l hl
      by_cases hK : rules ⊆ K
      · exact acc_of_all hide hK l hl
      obtain ⟨n, hn, hnK⟩ := Finset.not_subset.1 hK
      refine acc_append hide (fun m hm hmK l' hl' => ?_) l hl hn hnK [] (by simp [Hides])
      refine ih _ (Finset.card_lt_card ?_) _ rfl l' hl'
      rw [Finset.sdiff_insert]
      exact Finset.erase_ssubset (Finset.mem_sdiff.2 ⟨hm, hmK⟩)
  exact ⟨fun l => level ∅ l (by simp [Hides])⟩

end Embedded.HideSets
