import AsyncOrder.Proofs.Lowering.Construction

/-!
# Runs of the lowering monad

Errors are never taken back, so a run that ends without an error had none on the way.  States
are matched with constructions:

    Honest m        a run of m that ends clean began clean
    Reads m R       it ends in a match of the construction c it began in a match of, and returns
                    some a with R c a
    Builds c m R    begun in a match of c it ends in a match of some d, where Steps c d, and
                    returns some a with R a d
-/

namespace AsyncOrder.Lowering

variable {α β : Type}

/-! ## Matching states -/

/-- The frame lists the names in the site's block, none of them twice. -/
structure FrameAt (p : Program) (f : Frame) (s : Site) : Prop where
  isolated : f.isolated = decide (s.region = .hierarchy)
  names : f.names = p.entries (p.locals s.block)
  distinct : (f.names.map (·.1)).Nodup

structure Matches (s : State) (c : Construction) : Prop where
  program : s.program = c.program
  frames : List.Forall₂ (FrameAt c.program) s.frames c.sites

def State.Clean (s : State) : Prop := s.diagnostics.any Diagnostic.isError = false

def Honest (m : Lower α) : Prop := ∀ s, (m.run s).2.Clean → s.Clean

def Reads (m : Lower α) (R : Construction → α → Prop) : Prop :=
  ∀ s, (m.run s).2.Clean → s.Clean ∧ ∀ c, Matches s c → Matches (m.run s).2 c ∧ R c (m.run s).1

def Builds (c : Construction) (m : Lower α) (R : α → Construction → Prop) : Prop :=
  ∀ s, Matches s c → (m.run s).2.Clean →
    ∃ d, Steps c d ∧ Matches (m.run s).2 d ∧ R (m.run s).1 d

/-! ## Rules -/

theorem Reads.honest {m : Lower α} {R : Construction → α → Prop} (h : Reads m R) : Honest m :=
  fun s hs => (h s hs).1

theorem Honest.bind {m : Lower α} {f : α → Lower β} (hm : Honest m) (hf : ∀ a, Honest (f a)) :
    Honest (m >>= f) :=
  fun s hs => hm s (hf _ (m.run s).2 hs)

theorem Reads.mono {m : Lower α} {R S : Construction → α → Prop} (hm : Reads m R)
    (h : ∀ c a, R c a → S c a) : Reads m S := by
  intro s hs
  obtain ⟨hclean, hm⟩ := hm s hs
  exact ⟨hclean, fun c hc => ⟨(hm c hc).1, h c _ (hm c hc).2⟩⟩

theorem Reads.bind {m : Lower α} {f : α → Lower β} {R : Construction → α → Prop}
    {T : Construction → β → Prop} (hm : Reads m R)
    (hf : ∀ a, Reads (f a) fun c b => R c a → T c b) : Reads (m >>= f) T := by
  intro s hs
  obtain ⟨hclean, hf⟩ := hf (m.run s).1 (m.run s).2 hs
  obtain ⟨hclean, hm⟩ := hm s hclean
  refine ⟨hclean, fun c hc => ?_⟩
  obtain ⟨hmatch, hR⟩ := hm c hc
  exact ⟨(hf c hmatch).1, (hf c hmatch).2 hR⟩

theorem Reads.then {c : Construction} {m : Lower α} {f : α → Lower β}
    {R : Construction → α → Prop} {T : β → Construction → Prop} (hm : Reads m R)
    (hhonest : ∀ a, Honest (f a)) (hf : ∀ a, R c a → Builds c (f a) T) :
    Builds c (m >>= f) T := by
  intro s hmatch hs
  obtain ⟨-, hm⟩ := hm s (hhonest _ _ hs)
  exact hf _ (hm c hmatch).2 _ (hm c hmatch).1 hs

theorem Builds.bind {c : Construction} {m : Lower α} {f : α → Lower β}
    {R : α → Construction → Prop} {T : β → Construction → Prop} (hm : Builds c m R)
    (hhonest : ∀ a, Honest (f a)) (hf : ∀ a d, Steps c d → R a d → Builds d (f a) T) :
    Builds c (m >>= f) T := by
  intro s hmatch hs
  obtain ⟨d, hcd, hd, hR⟩ := hm s hmatch (hhonest _ _ hs)
  obtain ⟨e, hde, he, hT⟩ := hf _ d hcd hR _ hd hs
  exact ⟨e, hcd.trans hde, he, hT⟩

theorem Builds.mono {c : Construction} {m : Lower α} {R T : α → Construction → Prop}
    (hm : Builds c m R) (h : ∀ a d, Steps c d → R a d → T a d) : Builds c m T := by
  intro s hmatch hs
  obtain ⟨d, hcd, hd, hR⟩ := hm s hmatch hs
  exact ⟨d, hcd, hd, h _ d hcd hR⟩

theorem Reads.builds {c : Construction} {m : Lower α} {R : Construction → α → Prop}
    (hm : Reads m R) : Builds c m fun a d => d = c ∧ R c a := by
  intro s hmatch hs
  obtain ⟨-, hm⟩ := hm s hs
  exact ⟨c, .refl, (hm c hmatch).1, rfl, (hm c hmatch).2⟩

theorem reads_pure (a : α) : Reads (pure a) fun _ b => b = a :=
  fun _ hs => ⟨hs, fun _ hc => ⟨hc, rfl⟩⟩

theorem reads_get : Reads get fun c s => Matches s c := fun _ hs => ⟨hs, fun _ hc => ⟨hc, hc⟩⟩

/-- After an error no run is clean. -/
theorem reads_report {d : Diagnostic} (hd : d.isError = true) (R : Construction → Unit → Prop) :
    Reads (report d) R := by
  intro s hs
  have : (s.diagnostics ++ [d]).any Diagnostic.isError = false := hs
  simp [hd] at this

theorem reads_error (code : String) (span : Span) (message : String)
    (R : Construction → Unit → Prop) : Reads (error code span message) R :=
  reads_report rfl R

theorem Reads.never {m : Lower α} {f : α → Lower β} {R : Construction → β → Prop}
    (hm : Reads m fun _ _ => False) (hf : ∀ a, Reads (f a) fun _ _ => True) :
    Reads (m >>= f) R :=
  Reads.bind hm fun a => (hf a).mono fun _ _ _ hF => hF.elim

theorem reads_pure_true (a : α) : Reads (pure a) fun _ _ => True :=
  (reads_pure a).mono fun _ _ _ => trivial

/-! ## Names -/

/-- What a name means within reach is found at the sites. -/
theorem found_of_lookup {p : Program} {n : String} {v : ValueId} {frames : List Frame}
    {sites : List Site} (hmatch : List.Forall₂ (FrameAt p) frames sites)
    (h : lookup n frames = some (v, false)) : Found p sites n v := by
  induction hmatch with
  | nil => simp [lookup] at h
  | @cons f s frames sites hf _ ih =>
    rw [lookup, hf.names, Program.lookup_entries] at h
    split at h
    · next w hw =>
      obtain ⟨rfl, -⟩ := Prod.mk.inj (Option.some.inj h)
      exact Or.inl hw
    · next hnone =>
      obtain ⟨⟨w, beyond⟩, hw, heq⟩ := Option.map_eq_some_iff.1 h
      obtain ⟨rfl, hor⟩ := Prod.mk.inj heq
      obtain ⟨rfl, hiso⟩ := Bool.or_eq_false_iff.1 hor
      rw [hf.isolated, decide_eq_false_iff_not] at hiso
      exact Or.inr ⟨hnone, hiso, ih hw⟩

/-- A value that may be used where `demand` is made. -/
def Usable (c : Construction) (demand : Demand) (v : ValueId) : Prop :=
  (∃ n, Found c.program c.sites n v) ∧ demand.accepts (c.program.valueType v) = true

theorem Usable.known {c : Construction} {demand : Demand} {v : ValueId} (h : Usable c demand v) :
    Known c.program c.sites v := h.1.elim fun _ hn => hn.known

theorem reads_resolve (demand : Demand) (name : Source.Name) :
    Reads (resolve demand name) fun c r => ∃ v, r = some v ∧ Usable c demand v := by
  unfold resolve
  refine Reads.bind reads_get fun s => ?_
  split
  · exact Reads.never (reads_error _ _ _ _) fun _ => reads_pure_true _
  · exact Reads.never (reads_report rfl _) fun _ => reads_pure_true _
  · next v hv =>
    simp only
    split
    · next hacc =>
      refine (reads_pure _).mono fun c r hr hs => ⟨v, hr, ?_, ?_⟩
      · exact ⟨_, found_of_lookup hs.frames hv⟩
      · rw [← hs.program]
        exact hacc
    · exact Reads.never (reads_error _ _ _ _) fun _ => reads_pure_true _

theorem reads_resolveAll (demand : Demand) (names : List Source.Name) :
    Reads (resolveAll demand names) fun c r =>
      ∃ vs, r = some vs ∧ vs.length = names.length ∧ ∀ v ∈ vs, Usable c demand v := by
  induction names with
  | nil =>
    refine (reads_pure _).mono fun c r hr => ⟨[], hr, rfl, ?_⟩
    exact fun v hv => absurd hv List.not_mem_nil
  | cons name names ih =>
    refine Reads.bind (reads_resolve demand name) fun v => ?_
    refine Reads.bind ih fun vs => (reads_pure _).mono ?_
    rintro c _ rfl ⟨vs, rfl, hlen, hvs⟩ ⟨a, rfl, ha⟩
    refine ⟨a :: vs, rfl, by rw [List.length_cons, hlen, List.length_cons], ?_⟩
    exact List.forall_mem_cons.2 ⟨ha, hvs⟩

end AsyncOrder.Lowering
