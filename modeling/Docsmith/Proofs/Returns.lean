import Docsmith.Failure
import Mathlib.Data.List.Forall2

namespace Docsmith

/-!
# What computations return

A computation that may fail is followed step by step: what is true of its parts whenever they return
is true of the whole whenever it does.

* `Returns`: whatever a computation returns has a property.
* `Returns.bind`, `Returns.map`, `Returns.mapError`, `Returns.mapM`, `Returns.filterMapM`,
  `Returns.foldlM`: the steps.
* `Returns.mapM_pairwise`, `Returns.filterMapM_pairwise`: results that are related as their arguments are.
* `exists_mapM`, `mapM_of_first_error`: computations for the elements of a list return, or the first to fail decides.
* `Fails`: whatever a computation fails with has a property, with the same steps.
* `Matches`: a computation returns whenever another one does, with a related result, with the same steps.
* `mapM_flatten_filter`: elements for which nothing is returned may be left out.
-/

variable {ε α β : Type} {P : α → Prop} {Q : β → Prop}

/-- Whatever the computation returns has the property; it may also fail. -/
def Returns (x : Except ε α) (P : α → Prop) : Prop := ∀ a, x = .ok a → P a

namespace Returns

theorem of_any (x : Except ε α) : Returns x fun _ => True := fun _ _ => trivial

theorem self (x : Except ε α) : Returns x fun a => x = .ok a := fun _ h => h

theorem pure {a : α} (h : P a) : Returns (Pure.pure a : Except ε α) P := by
  rintro b ⟨⟩
  exact h

theorem error (e : ε) (P : α → Prop) : Returns (.error e) P := by
  rintro a ⟨⟩

/-- One computation and then another. -/
theorem bind {x : Except ε α} {f : α → Except ε β} (hx : Returns x P)
    (hf : ∀ a, P a → Returns (f a) Q) : Returns (x >>= f) Q := by
  intro b hb
  cases x with
  | error e => cases hb
  | ok a => exact hf a (hx a rfl) b hb

/-- A computation whose result is changed. -/
theorem map {x : Except ε α} {f : α → β} (hx : Returns x P) (hf : ∀ a, P a → Q (f a)) :
    Returns (f <$> x) Q := by
  intro b hb
  cases x with
  | error e => cases hb
  | ok a =>
    cases hb
    exact hf a (hx a rfl)

/-- A computation whose failures are changed. -/
theorem mapError {ε' : Type} {x : Except ε α} (hx : Returns x P) (f : ε → ε') :
    Returns (x.mapError f) P := by
  intro a ha
  cases x with
  | error e => cases ha
  | ok b =>
    cases ha
    exact hx a rfl

/-- A computation for each element of a list. -/
theorem mapM {f : α → Except ε β} {xs : List α} (hf : ∀ a ∈ xs, Returns (f a) Q) :
    Returns (xs.mapM f) fun bs => ∀ b ∈ bs, Q b := by
  induction xs with
  | nil => exact .pure fun b hb => by cases hb
  | cons a rest ih =>
    rw [List.mapM_cons]
    refine (hf a List.mem_cons_self).bind fun b hb => ?_
    refine (ih fun x hx => hf x (List.mem_cons_of_mem a hx)).bind fun bs hbs => .pure ?_
    intro c hc
    rcases List.mem_cons.mp hc with rfl | hc
    · exact hb
    · exact hbs c hc

/-- The result of the computation for each element of a list is among those that are returned. -/
theorem mapM_mem (f : α → Except ε β) (xs : List α) :
    Returns (xs.mapM f) fun bs => ∀ a ∈ xs, ∃ b ∈ bs, f a = .ok b := by
  induction xs with
  | nil => exact .pure fun a ha => by cases ha
  | cons a rest ih =>
    rw [List.mapM_cons]
    refine (Returns.self (f a)).bind fun b hb => ih.bind fun bs hbs => .pure ?_
    intro x hx
    rcases List.mem_cons.mp hx with rfl | hx
    · exact ⟨b, List.mem_cons_self, hb⟩
    · obtain ⟨c, hc, hxc⟩ := hbs x hx
      exact ⟨c, List.mem_cons_of_mem b hc, hxc⟩

/-- The results for the elements of a list are related as the elements are. -/
theorem mapM_pairwise {f : α → Except ε β} {xs : List α} {S : α → α → Prop} {R : β → β → Prop}
    {P : α → β → Prop} (hf : ∀ a ∈ xs, Returns (f a) (P a)) (hS : xs.Pairwise S)
    (hR : ∀ a b x y, S a b → P a x → P b y → R x y) :
    Returns (xs.mapM f) fun ys => ys.Pairwise R ∧ ∀ y ∈ ys, ∃ a ∈ xs, P a y := by
  -- induction on the list: what the tail gave stands to the new one as its elements stand to `a`
  induction xs with
  | nil => exact .pure ⟨.nil, fun y hy => by cases hy⟩
  | cons a rest ih =>
    obtain ⟨ha, hrest⟩ := List.pairwise_cons.mp hS
    rw [List.mapM_cons]
    refine (hf a List.mem_cons_self).bind fun y hy => ?_
    refine (ih (fun x hx => hf x (List.mem_cons_of_mem a hx)) hrest).bind fun ys hys => .pure ?_
    refine ⟨List.pairwise_cons.mpr ⟨fun z hz => ?_, hys.1⟩, fun z hz => ?_⟩
    · obtain ⟨b, hb, hbz⟩ := hys.2 z hz
      exact hR a b y z (ha b hb) hy hbz
    · rcases List.mem_cons.mp hz with rfl | hz
      · exact ⟨a, List.mem_cons_self, hy⟩
      · obtain ⟨b, hb, hbz⟩ := hys.2 z hz
        exact ⟨b, List.mem_cons_of_mem a hb, hbz⟩

/-- A computation for each element of a list that may have no result. -/
theorem filterMapM {f : α → Except ε (Option β)} {xs : List α}
    (hf : ∀ a ∈ xs, Returns (f a) fun b? => ∀ b ∈ b?, Q b) :
    Returns (xs.filterMapM f) fun bs => ∀ b ∈ bs, Q b := by
  induction xs with
  | nil => exact .pure fun b hb => by cases hb
  | cons a rest ih =>
    rw [List.filterMapM_cons]
    refine (hf a List.mem_cons_self).bind fun b? hb => ?_
    have hrest := ih fun x hx => hf x (List.mem_cons_of_mem a hx)
    cases b? with
    | none => exact hrest
    | some b =>
      refine hrest.bind fun bs hbs => .pure ?_
      intro c hc
      rcases List.mem_cons.mp hc with rfl | hc
      · exact hb c rfl
      · exact hbs c hc

/-- The results that there are for the elements of a list are related as the elements are. -/
theorem filterMapM_pairwise {f : α → Except ε (Option β)} {xs : List α} {S : α → α → Prop}
    {R : β → β → Prop} {P : α → β → Prop}
    (hf : ∀ a ∈ xs, Returns (f a) fun y? => ∀ y ∈ y?, P a y) (hS : xs.Pairwise S)
    (hR : ∀ a b x y, S a b → P a x → P b y → R x y) :
    Returns (xs.filterMapM f) fun ys => ys.Pairwise R ∧ ∀ y ∈ ys, ∃ a ∈ xs, P a y := by
  induction xs with
  | nil => exact .pure ⟨.nil, fun y hy => by cases hy⟩
  | cons a rest ih =>
    obtain ⟨ha, hrest⟩ := List.pairwise_cons.mp hS
    rw [List.filterMapM_cons]
    refine (hf a List.mem_cons_self).bind fun y? hy => ?_
    have hlater := ih (fun x hx => hf x (List.mem_cons_of_mem a hx)) hrest
    -- an element that gives nothing only adds to what was passed over
    cases y? with
    | none =>
      intro ys hys
      obtain ⟨hpair, hmem⟩ := hlater ys hys
      refine ⟨hpair, fun z hz => ?_⟩
      obtain ⟨b, hb, hbz⟩ := hmem z hz
      exact ⟨b, List.mem_cons_of_mem a hb, hbz⟩
    | some y =>
      refine hlater.bind fun ys hys => .pure ?_
      refine ⟨List.pairwise_cons.mpr ⟨fun z hz => ?_, hys.1⟩, fun z hz => ?_⟩
      · obtain ⟨b, hb, hbz⟩ := hys.2 z hz
        exact hR a b y z (ha b hb) (hy y rfl) hbz
      · rcases List.mem_cons.mp hz with rfl | hz
        · exact ⟨a, List.mem_cons_self, hy _ rfl⟩
        · obtain ⟨b, hb, hbz⟩ := hys.2 z hz
          exact ⟨b, List.mem_cons_of_mem a hb, hbz⟩

/-- A computation that is taken on from element to element of a list. -/
theorem foldlM {f : β → α → Except ε β} (xs : List α)
    (hf : ∀ b, Q b → ∀ a ∈ xs, Returns (f b a) Q) {b : β} (hb : Q b) :
    Returns (xs.foldlM f b) Q := by
  induction xs generalizing b with
  | nil => exact .pure hb
  | cons a rest ih =>
    rw [List.foldlM_cons]
    refine (hf b hb a List.mem_cons_self).bind fun b' hb' => ?_
    exact ih (fun b hb a ha => hf b hb a (List.mem_cons_of_mem _ ha)) hb'

end Returns

/-- A computation whose result passes a test does return. -/
theorem exists_of_any {x : Except ε α} {p : α → Bool} (h : x.toOption.any p = true) :
    ∃ a, x = .ok a ∧ p a = true := by
  cases x with
  | error e => cases h
  | ok a => exact ⟨a, rfl, h⟩

/-- A computation returns what is there when its failure is forgotten. -/
theorem eq_ok_of_toOption {x : Except ε α} {a : α} (h : x.toOption = some a) : x = .ok a := by
  cases x with
  | error e => cases h
  | ok b => exact congrArg Except.ok (Option.some.inj h)

/-- Computations that all return do so for a list. -/
theorem exists_mapM {f : α → Except ε β} {xs : List α} (h : ∀ a ∈ xs, ∃ b, f a = .ok b) :
    ∃ bs, xs.mapM f = .ok bs := by
  induction xs with
  | nil => exact ⟨[], rfl⟩
  | cons a rest ih =>
    obtain ⟨b, hb⟩ := h a List.mem_cons_self
    obtain ⟨bs, hbs⟩ := ih fun x hx => h x (List.mem_cons_of_mem a hx)
    refine ⟨b :: bs, ?_⟩
    rw [List.mapM_cons, hb, hbs]
    rfl

/-- Of computations for the elements of a list, the first to fail decides. -/
theorem mapM_of_first_error {f : α → Except ε β} {earlier later : List α} {a : α} {e : ε}
    (hearlier : ∀ x ∈ earlier, ∃ b, f x = .ok b) (ha : f a = .error e) :
    (earlier ++ a :: later).mapM f = .error e := by
  induction earlier with
  | nil =>
    rw [List.nil_append, List.mapM_cons, ha]
    rfl
  | cons first earlier ih =>
    obtain ⟨b, hb⟩ := hearlier first List.mem_cons_self
    rw [List.cons_append, List.mapM_cons, hb, ih fun x hx => hearlier x (List.mem_cons_of_mem first hx)]
    rfl

/-- Whatever the computation fails with has the property; it may also return. -/
def Fails (x : Except ε α) (P : ε → Prop) : Prop := ∀ e, x = .error e → P e

namespace Fails

variable {P : ε → Prop}

theorem pure (a : α) : Fails (Pure.pure a : Except ε α) P := by
  rintro e ⟨⟩

theorem error {e : ε} (h : P e) : Fails (.error e : Except ε α) P := by
  rintro e' ⟨⟩
  exact h

/-- One computation and then another. -/
theorem bind {x : Except ε α} {f : α → Except ε β} (hx : Fails x P) (hf : ∀ a, Fails (f a) P) :
    Fails (x >>= f) P := by
  intro e he
  cases x with
  | error e' =>
    cases he
    exact hx e rfl
  | ok a => exact hf a e he

/-- A computation whose result is changed. -/
theorem map {x : Except ε α} (hx : Fails x P) (f : α → β) : Fails (f <$> x) P := by
  intro e he
  cases x with
  | error e' =>
    cases he
    exact hx e rfl
  | ok a => cases he

/-- A computation for each element of a list. -/
theorem mapM {f : α → Except ε β} {xs : List α} (hf : ∀ a ∈ xs, Fails (f a) P) :
    Fails (xs.mapM f) P := by
  induction xs with
  | nil => exact .pure []
  | cons a rest ih =>
    rw [List.mapM_cons]
    refine (hf a List.mem_cons_self).bind fun b => ?_
    exact (ih fun x hx => hf x (List.mem_cons_of_mem a hx)).bind fun bs => .pure _

/-- A computation for each element of a list that may have no result. -/
theorem filterMapM {f : α → Except ε (Option β)} {xs : List α} (hf : ∀ a ∈ xs, Fails (f a) P) :
    Fails (xs.filterMapM f) P := by
  induction xs with
  | nil => exact .pure []
  | cons a rest ih =>
    rw [List.filterMapM_cons]
    have hrest := ih fun x hx => hf x (List.mem_cons_of_mem a hx)
    refine (hf a List.mem_cons_self).bind fun b? => ?_
    cases b? with
    | none => exact hrest
    | some b => exact hrest.bind fun bs => .pure _

/-- A computation that is taken on from element to element of a list. -/
theorem foldlM {f : β → α → Except ε β} (xs : List α) (hf : ∀ b a, Fails (f b a) P) (b : β) :
    Fails (xs.foldlM f b) P := by
  induction xs generalizing b with
  | nil => exact .pure b
  | cons a rest ih =>
    rw [List.foldlM_cons]
    exact (hf b a).bind ih

end Fails

section Matches

variable {α' β' : Type} {R : α → α' → Prop} {S : β → β' → Prop}

/-- When the first computation returns, the second one does, and the results are related. -/
def Matches (R : α → α' → Prop) (x : Except ε α) (y : Except ε α') : Prop :=
  ∀ a, x = .ok a → ∃ b, y = .ok b ∧ R a b

namespace Matches

theorem of_eq {x : Except ε α} {y : Except ε α} (h : y = x) : Matches Eq x y :=
  fun a ha => ⟨a, h.trans ha, rfl⟩

theorem pure {a : α} {b : α'} (h : R a b) : Matches R (Pure.pure a : Except ε α) (Pure.pure b) := by
  rintro _ ⟨⟩
  exact ⟨b, rfl, h⟩

/-- Computations and then others. -/
theorem bind {x : Except ε α} {y : Except ε α'} {f : α → Except ε β} {g : α' → Except ε β'} (h : Matches R x y)
    (hf : ∀ a b, R a b → Matches S (f a) (g b)) : Matches S (x >>= f) (y >>= g) := by
  intro c hc
  cases x with
  | error e => cases hc
  | ok a =>
    obtain ⟨b, rfl, hab⟩ := h a rfl
    exact hf a b hab c hc

/-- Computations for the elements of related lists. -/
theorem mapM {f : α → Except ε β} {g : α' → Except ε β'} {xs : List α} {ys : List α'} (h : List.Forall₂ R xs ys)
    (hf : ∀ a b, R a b → Matches S (f a) (g b)) : Matches (List.Forall₂ S) (xs.mapM f) (ys.mapM g) := by
  induction h with
  | nil => exact .pure .nil
  | cons hab _ ih =>
    rw [List.mapM_cons, List.mapM_cons]
    exact (hf _ _ hab).bind fun _ _ hfirst => ih.bind fun _ _ hrest => .pure (.cons hfirst hrest)

end Matches

/-- Elements for which nothing comes of a computation may be left out. -/
theorem mapM_flatten_filter {f : α → Except ε (List β)} {p : α → Bool} {xs : List α}
    (h : ∀ a ∈ xs, p a = false → f a = .ok []) :
    List.flatten <$> (xs.filter p).mapM f = List.flatten <$> xs.mapM f := by
  -- putting the new list in front and flattening may be exchanged, whether or not the tail succeeds
  have hcons (bs : List β) (y : Except ε (List (List β))) :
      List.flatten <$> (do let rest ← y; Pure.pure (bs :: rest)) = (bs ++ ·) <$> (List.flatten <$> y) := by
    cases y <;> rfl
  induction xs with
  | nil => rfl
  | cons a xs ih =>
    have hrest := ih fun x hx => h x (List.mem_cons_of_mem a hx)
    rw [List.filter_cons, List.mapM_cons]
    cases hp : p a with
    | true =>
      rw [if_pos rfl, List.mapM_cons]
      cases f a with
      | error e => rfl
      | ok bs => exact (hcons bs _).trans ((congrArg _ hrest).trans (hcons bs _).symm)
    -- the elements left out would have given the empty list, so nothing is missing
    | false =>
      rw [if_neg Bool.false_ne_true, hrest, h a List.mem_cons_self hp]
      cases xs.mapM f <;> rfl

end Matches

end Docsmith
