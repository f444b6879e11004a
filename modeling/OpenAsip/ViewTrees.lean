import Mathlib.Data.List.Forall2

namespace OpenAsip
set_option autoImplicit true

/-- A view of something with views of parts of it. -/
inductive ViewTree (α : Type) where
  | node (view : α) (parts : List (ViewTree α))

namespace ViewTree

def view : ViewTree α → α
  | node a _ => a

def parts : ViewTree α → List (ViewTree α)
  | node _ ts => ts

@[simp]
theorem view_node (a : α) (ts : List (ViewTree α)) : (node a ts).view = a := rfl

mutual
def map (g : α → β) : ViewTree α → ViewTree β
  | node a ts => node (g a) (mapAll g ts)
def mapAll (g : α → β) : List (ViewTree α) → List (ViewTree β)
  | [] => []
  | t :: ts => map g t :: mapAll g ts
end

theorem mapAll_eq (g : α → β) (ts : List (ViewTree α)) : mapAll g ts = ts.map (map g) := by
  induction ts with
  | nil => rfl
  | cons t ts ih => rw [mapAll, ih, List.map_cons]

@[simp]
theorem map_node (g : α → β) (a : α) (ts : List (ViewTree α)) :
    map g (node a ts) = node (g a) (ts.map (map g)) := by
  rw [map, mapAll_eq]

@[simp]
theorem parts_map (g : α → β) (t : ViewTree α) : (map g t).parts = t.parts.map (map g) := by
  cases t with
  | node a ts => rw [map_node, parts, parts]

@[simp]
theorem view_map (g : α → β) (t : ViewTree α) : (map g t).view = g t.view := by
  cases t with
  | node a ts => rw [map_node, view_node, view_node]

mutual
theorem map_map (g : α → β) (g' : β → γ) (t : ViewTree α) : map g' (map g t) = map (g' ∘ g) t := by
  cases t with
  | node a ts => rw [map, map, map, mapAll_mapAll, Function.comp_apply]
theorem mapAll_mapAll (g : α → β) (g' : β → γ) (ts : List (ViewTree α)) :
    mapAll g' (mapAll g ts) = mapAll (g' ∘ g) ts := by
  cases ts with
  | nil => rfl
  | cons t ts => rw [mapAll, mapAll, mapAll, map_map, mapAll_mapAll]
end

/-- The part at a path. -/
def get? : List Nat → ViewTree α → Option (ViewTree α)
  | [], t => some t
  | i :: path, t => t.parts[i]?.bind (get? path)

/-- Every view on the path is changed. -/
def along (f : α → α) : List Nat → ViewTree α → Option (ViewTree α)
  | [], node a ts => some (node (f a) ts)
  | i :: path, node a ts =>
    ts[i]?.bind fun t => (along f path t).map fun t' => node (f a) (ts.set i t')

/-- The part at the path is replaced. -/
def modify (F : ViewTree α → Option (ViewTree α)) : List Nat → ViewTree α → Option (ViewTree α)
  | [], t => F t
  | i :: path, node a ts =>
    ts[i]?.bind fun t => (modify F path t).map fun t' => node a (ts.set i t')

/-- What a visitor does with a view: it leaves it alone with all of its parts, or changes it and
goes on to its parts, or gives up. -/
inductive Visit (α : Type) where
  | leave
  | change (view : α)
  | fail

mutual
def down (f : α → Visit α) : ViewTree α → Option (ViewTree α)
  | node a ts =>
    match f a with
    | .leave => some (node a ts)
    | .change b => (downAll f ts).map (node b)
    | .fail => none
def downAll (f : α → Visit α) : List (ViewTree α) → Option (List (ViewTree α))
  | [] => some []
  | t :: ts => (down f t).bind fun t' => (downAll f ts).map fun ts' => t' :: ts'
end

/-- The visitor starts at the part at the path. From a view that it changes it goes on to the parts
and to the view that this is a part of. The second result tells whether that one is to be
visited. -/
def upFrom (f : α → Visit α) : List Nat → ViewTree α → Option (ViewTree α × Bool)
  | [], node a ts =>
    match f a with
    | .leave => some (node a ts, false)
    | .change b => (downAll f ts).map fun ts' => (node b ts', true)
    | .fail => none
  | i :: path, node a ts =>
    ts[i]?.bind fun t =>
      (upFrom f path t).bind fun (t', up) =>
        if up then
          match f a with
          | .leave => some (node a (ts.set i t'), false)
          | .change b =>
            (downAll f (ts.take i)).bind fun before =>
              (downAll f (ts.drop (i + 1))).map fun after => (node b (before ++ t' :: after), true)
          | .fail => none
        else some (node a (ts.set i t'), false)

/-- Every view has the property, and every part is related to the whole. -/
inductive Nested (P : α → Prop) (R : α → α → Prop) : ViewTree α → Prop where
  | node : P a → (∀ t ∈ ts, R t.view a) → (∀ t ∈ ts, Nested P R t) → Nested P R (node a ts)

/-- What is left of a view that the visitor does not fail at. -/
def Visit.of (f : α → Visit α) (a : α) : α :=
  match f a with
  | .change b => b
  | _ => a

/-- A visitor that makes one property of all views another one. What it leaves alone has it already,
as have the parts. -/
structure Respects (f : α → Visit α) (P P' : α → Prop) (R : α → α → Prop) : Prop where
  change : P a → f a = .change b → P' b
  leave : P a → f a = .leave → P' a
  below : P a → P b → R b a → f a = .leave → f b = .leave
  rel : P a → P b → R b a → R (Visit.of f b) (Visit.of f a)

section
variable {f : α → Visit α} {P P' : α → Prop} {R : α → α → Prop} {t : ViewTree α}

theorem Nested.view (h : Nested P R t) : P t.view := by
  cases h with
  | node ha _ _ => exact ha

theorem Nested.imp (h : Nested P R t) (himp : ∀ a, P a → P' a) : Nested P' R t := by
  induction h with
  | node ha hrel _ ih => exact .node (himp _ ha) hrel ih

theorem Nested.single (h : P a) : Nested P R (.node a []) :=
  .node h (fun _ hc => nomatch hc) (fun _ hc => nomatch hc)

theorem Nested.setView (h : Nested P R t) (hb : P b) (hrel : ∀ a, R a t.view → R a b) :
    Nested P R (.node b t.parts) := by
  cases h with
  | node _ hr hn => exact .node hb (fun c hc => hrel _ (hr c hc)) hn

theorem Nested.addPart (h : Nested P R t) (hc : Nested P R c) (hrel : R c.view t.view) :
    Nested P R (.node t.view (t.parts ++ [c])) := by
  cases h with
  | node ha hr hn =>
    apply Nested.node ha
    · intro d hd
      rcases List.mem_append.1 hd with hd | hd
      · exact hr d hd
      · cases List.mem_singleton.1 hd
        exact hrel
    · intro d hd
      rcases List.mem_append.1 hd with hd | hd
      · exact hn d hd
      · cases List.mem_singleton.1 hd
        exact hc

theorem Nested.leave (hf : Respects f P P' R) (h : Nested P R t) (hl : f t.view = .leave) :
    Nested (fun a => P a ∧ f a = .leave) R t := by
  induction h with
  | node ha hrel hn ih =>
    apply Nested.node ⟨ha, hl⟩ hrel
    intro c hc
    exact ih c hc (hf.below ha (hn c hc).view (hrel c hc) hl)

theorem Nested.of_leave (hf : Respects f P P' R) (h : Nested P R t) (hl : f t.view = .leave) :
    Nested P' R t :=
  (h.leave hf hl).imp fun _ ha => hf.leave ha.1 ha.2

theorem Nested.get? (h : Nested P R t) (hg : get? path t = some t') : Nested P R t' := by
  induction path generalizing t with
  | nil =>
    cases hg
    exact h
  | cons i path ih =>
    cases h with
    | node _ _ hn =>
      rw [ViewTree.get?, Option.bind_eq_some_iff] at hg
      obtain ⟨c, hc, hg⟩ := hg
      exact ih (hn c (List.mem_of_getElem? hc)) hg

theorem Nested.and {C : α → Prop} (h : Nested P R t)
    (hC : ∀ path c, ViewTree.get? path t = some c → C c.view) :
    Nested (fun a => P a ∧ C a) R t := by
  induction h with
  | node ha hrel _ ih =>
    apply Nested.node ⟨ha, hC [] _ rfl⟩ hrel
    intro c hc
    apply ih c hc
    intro path d hd
    obtain ⟨i, hi⟩ := List.mem_iff_getElem?.1 hc
    apply hC (i :: path)
    rw [ViewTree.get?, parts, hi, Option.bind_some, hd]

/-- A part is related to what it is a part of. -/
theorem Nested.exists_rel (h : Nested P R t) (hc : ViewTree.get? (i :: path) t = some c) :
    ∃ a, R c.view a := by
  induction path generalizing t i with
  | nil =>
    cases h with
    | node _ hr _ =>
      rw [ViewTree.get?, parts, Option.bind_eq_some_iff] at hc
      obtain ⟨d, hd, hc⟩ := hc
      cases hc
      exact ⟨_, hr c (List.mem_of_getElem? hd)⟩
  | cons j path ih =>
    cases h with
    | node _ _ hn =>
      rw [ViewTree.get?, parts, Option.bind_eq_some_iff] at hc
      obtain ⟨d, hd, hc⟩ := hc
      exact ih (hn d (List.mem_of_getElem? hd)) hc

theorem Nested.le {Q : α → α → Prop} (hQ : ∀ a b, R b a → Q b a) (hrefl : ∀ a, Q a a)
    (htrans : ∀ a b c, Q c b → Q b a → Q c a) (h : Nested P R t)
    (hc : ViewTree.get? path t = some c) : Q c.view t.view := by
  induction path generalizing t with
  | nil =>
    cases hc
    exact hrefl _
  | cons i path ih =>
    cases h with
    | node _ hr hn =>
      rw [ViewTree.get?, parts, Option.bind_eq_some_iff] at hc
      obtain ⟨d, hd, hc⟩ := hc
      have hmem := List.mem_of_getElem? hd
      exact htrans _ _ _ (ih (hn d hmem) hc) (hQ _ _ (hr d hmem))

theorem Nested.map_congr (h : Nested P R t) (hg : ∀ a, P a → g a = g' a) : map g t = map g' t := by
  induction h with
  | node ha _ _ ih => rw [map_node, map_node, hg _ ha, List.map_congr_left ih]

theorem forall₂_of_downAll {ts ts' : List (ViewTree α)} (h : downAll f ts = some ts') :
    List.Forall₂ (fun t t' => down f t = some t') ts ts' := by
  induction ts generalizing ts' with
  | nil =>
    cases h
    exact .nil
  | cons t ts ih =>
    rw [downAll, Option.bind_eq_some_iff] at h
    obtain ⟨t', ht, h⟩ := h
    rw [Option.map_eq_some_iff] at h
    obtain ⟨ts', hts, rfl⟩ := h
    exact .cons ht (ih hts)

theorem down_cases (h : down f t = some t') :
    f t.view = .leave ∧ t' = t ∨
      ∃ b ts, f t.view = .change b ∧ t' = .node b ts ∧
        List.Forall₂ (fun t t' => down f t = some t') t.parts ts := by
  cases t with
  | node a ts =>
    rw [down] at h
    split at h
    · next hl => exact .inl ⟨hl, (Option.some.inj h).symm⟩
    · next b hb =>
      rw [Option.map_eq_some_iff] at h
      obtain ⟨ts', hts, rfl⟩ := h
      exact .inr ⟨b, ts', hb, rfl, forall₂_of_downAll hts⟩
    · cases h

theorem view_of_down (h : down f t = some t') : t'.view = Visit.of f t.view := by
  rcases down_cases h with ⟨hl, rfl⟩ | ⟨b, ts, hb, rfl, _⟩
  · simp [Visit.of, hl]
  · simp [Visit.of, hb]

/-- What a visitor makes of the views from the top on. -/
theorem Nested.down (hf : Respects f P P' R) (h : Nested P R t) (hd : down f t = some t') :
    Nested P' R t' := by
  induction h generalizing t' with
  | node ha hrel hn ih =>
    next a ts =>
    rcases down_cases hd with ⟨hl, rfl⟩ | ⟨b, ts', hb, rfl, hts⟩
    · exact Nested.of_leave hf (.node ha hrel hn) hl
    · have hof : Visit.of f a = b := by simp only [Visit.of, show f a = .change b from hb]
      have hmem : ∀ t' ∈ ts', ∃ t ∈ ts, ViewTree.down f t = some t' := by
        intro t' ht'
        obtain ⟨i, hi, rfl⟩ := List.mem_iff_getElem.1 ht'
        have hlen : i < ts.length := hts.length_eq ▸ hi
        exact ⟨ts[i], List.getElem_mem hlen, hts.get hlen hi⟩
      apply Nested.node (hf.change ha hb)
      · intro t' ht'
        obtain ⟨t, ht, hdt⟩ := hmem t' ht'
        rw [view_of_down hdt, ← hof]
        exact hf.rel ha (hn t ht).view (hrel t ht)
      · intro t' ht'
        obtain ⟨t, ht, hdt⟩ := hmem t' ht'
        exact ih t ht hdt

theorem downAll_append {ts₁ ts₂ : List (ViewTree α)} (h₁ : downAll f ts₁ = some us₁)
    (h₂ : downAll f ts₂ = some us₂) : downAll f (ts₁ ++ ts₂) = some (us₁ ++ us₂) := by
  induction ts₁ generalizing us₁ with
  | nil =>
    cases h₁
    exact h₂
  | cons t ts ih =>
    rw [downAll, Option.bind_eq_some_iff] at h₁
    obtain ⟨t', ht, h₁⟩ := h₁
    rw [Option.map_eq_some_iff] at h₁
    obtain ⟨ts', hts, rfl⟩ := h₁
    rw [List.cons_append, downAll, ht, Option.bind_some, ih hts, Option.map_some, List.cons_append]

theorem exists_downAll {ts : List (ViewTree α)} (h : ∀ t ∈ ts, ∃ t', down f t = some t') :
    ∃ ts', downAll f ts = some ts' := by
  induction ts with
  | nil => exact ⟨[], rfl⟩
  | cons t ts ih =>
    obtain ⟨t', ht⟩ := h t List.mem_cons_self
    obtain ⟨ts', hts⟩ := ih fun t ht => h t (List.mem_cons_of_mem _ ht)
    exact ⟨t' :: ts', by rw [downAll, ht, Option.bind_some, hts, Option.map_some]⟩

theorem Nested.exists_down (h : Nested P R t) (hfail : ∀ a, P a → f a ≠ .fail) :
    ∃ t', ViewTree.down f t = some t' := by
  induction h with
  | node ha hrel hn ih =>
    next a ts =>
    rw [ViewTree.down]
    cases hfa : f a with
    | leave => exact ⟨_, rfl⟩
    | change b =>
      obtain ⟨ts', hts⟩ := exists_downAll ih
      exact ⟨.node b ts', by simp only [hts, Option.map_some]⟩
    | fail => exact absurd hfa (hfail a ha)

theorem upFrom_of_leave (hc : get? path t = some c) (hl : f c.view = .leave) :
    upFrom f path t = some (t, false) := by
  induction path generalizing t with
  | nil =>
    cases t with
    | node a ts =>
      cases hc
      rw [view_node] at hl
      simp only [upFrom, hl]
  | cons i path ih =>
    cases t with
    | node a ts =>
      rw [get?, parts, Option.bind_eq_some_iff] at hc
      obtain ⟨c', hc', hc⟩ := hc
      obtain ⟨hi, rfl⟩ := List.getElem?_eq_some_iff.1 hc'
      rw [upFrom, hc', Option.bind_some, ih hc, Option.bind_some]
      simp only [Bool.false_eq_true, if_false, List.set_getElem_self]

/-- A visitor that does not leave the view alone at which it starts comes to the same as one that
starts at the top. -/
theorem Nested.upFrom (hf : Respects f P P' R) (h : Nested P R t)
    (hfail : ∀ a, P a → f a ≠ .fail) (hc : ViewTree.get? path t = some c)
    (hv : f c.view ≠ .leave) :
    f t.view ≠ .leave ∧
      ∃ t', ViewTree.upFrom f path t = some (t', true) ∧ ViewTree.down f t = some t' := by
  induction path generalizing t with
  | nil =>
    cases hc
    refine ⟨hv, ?_⟩
    obtain ⟨t', ht'⟩ := h.exists_down hfail
    refine ⟨t', ?_, ht'⟩
    cases c with
    | node a ts =>
      rw [view_node] at hv
      rw [ViewTree.down] at ht'
      rw [ViewTree.upFrom]
      cases hfa : f a with
      | leave => exact absurd hfa hv
      | change b =>
        simp only [hfa, Option.map_eq_some_iff] at ht' ⊢
        obtain ⟨ts', hts, rfl⟩ := ht'
        exact ⟨ts', hts, rfl⟩
      | fail => exact absurd hfa (hfail a h.view)
  | cons i path ih =>
    cases h with
    | node ha hrel hn =>
      next a ts =>
      rw [ViewTree.get?, parts, Option.bind_eq_some_iff] at hc
      obtain ⟨d, hd, hc⟩ := hc
      have hmem : d ∈ ts := List.mem_of_getElem? hd
      obtain ⟨hi, rfl⟩ := List.getElem?_eq_some_iff.1 hd
      obtain ⟨hvisit, c', hup, hdown⟩ := ih (hn _ hmem) hc
      have hne : f a ≠ .leave := fun hl => hvisit (hf.below ha (hn _ hmem).view (hrel _ hmem) hl)
      refine ⟨hne, ?_⟩
      rw [ViewTree.upFrom, ViewTree.down, hd, Option.bind_some, hup, Option.bind_some]
      cases hfa : f a with
      | leave => exact absurd hfa hne
      | fail => exact absurd hfa (hfail a ha)
      | change b =>
        have hall : ∀ t ∈ ts, ∃ t', ViewTree.down f t = some t' :=
          fun t ht => (hn t ht).exists_down hfail
        obtain ⟨before, hbefore⟩ := exists_downAll fun t ht => hall t (List.mem_of_mem_take ht)
        obtain ⟨after, hafter⟩ := exists_downAll fun t ht => hall t (List.mem_of_mem_drop ht)
        have hcut : ts = ts.take i ++ ts[i] :: ts.drop (i + 1) := by
          rw [List.getElem_cons_drop, List.take_append_drop]
        have hafter' : downAll f (ts[i] :: ts.drop (i + 1)) = some (c' :: after) := by
          rw [downAll, hdown, Option.bind_some, hafter, Option.map_some]
        have hts := downAll_append hbefore hafter'
        rw [← hcut] at hts
        simp [hbefore, hafter, hts]

/-- Every view on the path is changed to one with the property, which its parts stay related to. -/
theorem Nested.along (h : Nested P R t) (himp : ∀ a, P a → P' a) (hchange : ∀ a, P a → P' (g a))
    (hrel : ∀ a b, P a → P b → R b a → R b (g a)) (hboth : ∀ a b, P a → P b → R b a → R (g b) (g a))
    (ha : along g path t = some t') : Nested P' R t' ∧ t'.view = g t.view := by
  induction path generalizing t t' with
  | nil =>
    cases h with
    | node hp hr hn =>
      cases ha
      exact ⟨.node (hchange _ hp) (fun c hc => hrel _ _ hp (hn c hc).view (hr c hc))
        fun c hc => (hn c hc).imp himp, rfl⟩
  | cons i path ih =>
    cases h with
    | node hp hr hn =>
      rw [ViewTree.along, Option.bind_eq_some_iff] at ha
      obtain ⟨c, hc, ha⟩ := ha
      rw [Option.map_eq_some_iff] at ha
      obtain ⟨c', hc', rfl⟩ := ha
      have hmem := List.mem_of_getElem? hc
      obtain ⟨hnested, hview⟩ := ih (hn c hmem) hc'
      refine ⟨.node (hchange _ hp) ?_ ?_, rfl⟩
      · intro d hd
        rcases List.mem_or_eq_of_mem_set hd with hd | rfl
        · exact hrel _ _ hp (hn d hd).view (hr d hd)
        · rw [hview]
          exact hboth _ _ hp (hn c hmem).view (hr c hmem)
      · intro d hd
        rcases List.mem_or_eq_of_mem_set hd with hd | rfl
        · exact (hn d hd).imp himp
        · exact hnested

/-- The part at the path is replaced by one that is related to whatever it was related to. -/
theorem Nested.modify (h : Nested P R t) (hc : ViewTree.get? path t = some c) (hF : F c = some c')
    (hn : Nested P R c') (hview : ∀ a, R c.view a → R c'.view a) :
    ∃ t', ViewTree.modify F path t = some t' ∧ Nested P R t' ∧
      ∀ a, R t.view a → R t'.view a := by
  induction path generalizing t with
  | nil =>
    cases hc
    exact ⟨c', hF, hn, hview⟩
  | cons i path ih =>
    cases h with
    | node hp hr hparts =>
      next a ts =>
      rw [ViewTree.get?, parts, Option.bind_eq_some_iff] at hc
      obtain ⟨d, hd, hc⟩ := hc
      have hmem : d ∈ ts := List.mem_of_getElem? hd
      obtain ⟨d', hd', hnested, hview'⟩ := ih (hparts d hmem) hc
      refine ⟨.node a (ts.set i d'), ?_, .node hp ?_ ?_, fun _ => id⟩
      · rw [ViewTree.modify, hd, Option.bind_some, hd', Option.map_some]
      · intro b hb
        rcases List.mem_or_eq_of_mem_set hb with hb | rfl
        · exact hr b hb
        · exact hview' _ (hr d hmem)
      · intro b hb
        rcases List.mem_or_eq_of_mem_set hb with hb | rfl
        · exact hparts b hb
        · exact hnested

/-- What a visitor makes of a function of the views. -/
theorem map_of_down (hf : Respects f P P' R) (h : Nested P R t)
    (hδ : ∀ a, P a → f a ≠ .fail → g (Visit.of f a) = δ (g a)) (hd : down f t = some t') :
    map g t' = map (δ ∘ g) t := by
  induction h generalizing t' with
  | node ha hrel hn ih =>
    next a ts =>
    rcases down_cases hd with ⟨hl, rfl⟩ | ⟨b, ts', hb, rfl, hts⟩
    · apply ((Nested.node ha hrel hn).leave hf hl).map_congr
      intro b hb
      have := hδ b hb.1 (by simp [hb.2])
      simpa [Visit.of, hb.2] using this
    · have hb' : f a = .change b := hb
      have hof : Visit.of f a = b := by simp only [Visit.of, hb']
      rw [map_node, map_node, Function.comp_apply, ← hδ a ha (by simp [hb']), hof]
      have hlen : ts.length = ts'.length := hts.length_eq
      refine congrArg _ (List.ext_getElem (by simp [hlen]) ?_)
      intro i hi hi'
      rw [List.getElem_map, List.getElem_map]
      rw [List.length_map] at hi hi'
      exact ih _ (List.getElem_mem hi') (hts.get hi' hi)

theorem map_of_along (hg : ∀ a, g (φ a) = ψ (g a)) (ha : along φ path t = some t') :
    along ψ path (map g t) = some (map g t') := by
  induction path generalizing t t' with
  | nil =>
    cases t with
    | node a ts =>
      cases ha
      rw [map_node, map_node, along, hg]
  | cons i path ih =>
    cases t with
    | node a ts =>
      rw [along, Option.bind_eq_some_iff] at ha
      obtain ⟨c, hc, ha⟩ := ha
      rw [Option.map_eq_some_iff] at ha
      obtain ⟨c', hc', rfl⟩ := ha
      rw [map_node, map_node, along, List.getElem?_map, hc, Option.map_some, Option.bind_some,
        ih hc', Option.map_some, hg, List.map_set]

theorem view_of_modify (hm : modify F (i :: path) t = some t') : t'.view = t.view := by
  cases t with
  | node a ts =>
    rw [modify, Option.bind_eq_some_iff] at hm
    obtain ⟨d, _, hm⟩ := hm
    rw [Option.map_eq_some_iff] at hm
    obtain ⟨d', _, rfl⟩ := hm
    rfl

theorem modify_some (hc : get? path t = some c) : modify some path t = some t := by
  induction path generalizing t with
  | nil => rfl
  | cons i path ih =>
    cases t with
    | node a ts =>
      rw [get?, parts, Option.bind_eq_some_iff] at hc
      obtain ⟨d, hd, hc⟩ := hc
      obtain ⟨hi, rfl⟩ := List.getElem?_eq_some_iff.1 hd
      rw [modify, hd, Option.bind_some, ih hc, Option.map_some, List.set_getElem_self]

theorem modify_map {g : α → β} (hc : get? path t = some c) (hF : F c = some c')
    (hF' : F' (map g c) = some (map g c')) :
    modify F' path (map g t) = (modify F path t).map (map g) := by
  induction path generalizing t with
  | nil =>
    cases hc
    rw [modify, modify, hF', hF, Option.map_some]
  | cons i path ih =>
    cases t with
    | node a ts =>
      rw [get?, parts, Option.bind_eq_some_iff] at hc
      obtain ⟨d, hd, hc⟩ := hc
      rw [map_node, modify, modify, List.getElem?_map, hd, Option.map_some, Option.bind_some,
        Option.bind_some, ih hc, Option.map_map, Option.map_map]
      refine congrArg (fun k => (modify F path d).map k) (funext fun t' => ?_)
      rw [Function.comp_apply, Function.comp_apply, map_node, List.map_set]

theorem exists_along (hc : get? path t = some c) : ∃ t', along g path t = some t' := by
  induction path generalizing t with
  | nil =>
    cases t with
    | node a ts => exact ⟨_, rfl⟩
  | cons i path ih =>
    cases t with
    | node a ts =>
      rw [get?, parts, Option.bind_eq_some_iff] at hc
      obtain ⟨d, hd, hc⟩ := hc
      obtain ⟨t', ht'⟩ := ih hc
      exact ⟨.node (g a) (ts.set i t'), by rw [along, hd, Option.bind_some, ht', Option.map_some]⟩

theorem get?_map (g : α → β) (path : List Nat) (t : ViewTree α) :
    get? path (map g t) = (get? path t).map (map g) := by
  induction path generalizing t with
  | nil => rfl
  | cons i path ih =>
    cases t with
    | node a ts =>
      rw [map_node, get?, get?, parts, parts, List.getElem?_map]
      cases ts[i]? with
      | none => rfl
      | some c => exact ih c

theorem get?_append (path path' : List Nat) (t : ViewTree α) :
    get? (path ++ path') t = (get? path t).bind (get? path') := by
  induction path generalizing t with
  | nil => rfl
  | cons i path ih =>
    rw [List.cons_append, get?, get?, Option.bind_assoc]
    congr 1
    funext c
    exact ih c

theorem modify_append (F : ViewTree α → Option (ViewTree α)) (path path' : List Nat)
    (t : ViewTree α) : modify F (path ++ path') t = modify (modify F path') path t := by
  induction path generalizing t with
  | nil => rfl
  | cons i path ih =>
    cases t with
    | node a ts =>
      rw [List.cons_append, modify, modify]
      congr 1
      funext c
      rw [ih]

theorem exists_modify (hc : get? path t = some c) (hF : F c = some c') :
    ∃ t', modify F path t = some t' := by
  induction path generalizing t with
  | nil =>
    cases hc
    exact ⟨c', hF⟩
  | cons i path ih =>
    cases t with
    | node a ts =>
      rw [get?, parts, Option.bind_eq_some_iff] at hc
      obtain ⟨d, hd, hc⟩ := hc
      obtain ⟨d', hd'⟩ := ih hc
      exact ⟨.node a (ts.set i d'), by rw [modify, hd, Option.bind_some, hd', Option.map_some]⟩

theorem get?_of_modify (hc : get? path t = some c) (hm : modify F path t = some t') :
    ∃ c', F c = some c' ∧ get? path t' = some c' := by
  induction path generalizing t t' with
  | nil =>
    cases hc
    exact ⟨t', hm, rfl⟩
  | cons i path ih =>
    cases t with
    | node a ts =>
      rw [get?, parts, Option.bind_eq_some_iff] at hc
      obtain ⟨d, hd, hc⟩ := hc
      rw [modify, hd, Option.bind_some, Option.map_eq_some_iff] at hm
      obtain ⟨d', hd', rfl⟩ := hm
      obtain ⟨c', hF, hget⟩ := ih hc hd'
      have hi := (List.getElem?_eq_some_iff.1 hd).1
      refine ⟨c', hF, ?_⟩
      rw [get?, parts, List.getElem?_set_self hi, Option.bind_some, hget]

/-- What a part is replaced in keeps its view. -/
theorem view_get?_of_modify (hpath : path ≠ []) (hp : get? path.dropLast t = some p)
    (hm : modify F path t = some t') :
    ∃ p', get? path.dropLast t' = some p' ∧ p'.view = p.view := by
  rw [← List.dropLast_append_getLast hpath, modify_append] at hm
  obtain ⟨p', hF, hget⟩ := get?_of_modify hp hm
  exact ⟨p', hget, view_of_modify hF⟩

end

end ViewTree

end OpenAsip
