import FeatureAssembly.Assembly.Step

/-!
# How steps end

What can be said of a `Step` from where it begins: that whenever it ends, it ends as a
condition on the outcome and on the new progress says (`Step.Ends False`), or that it does
end and ends that way (`Step.Ends True`). One parameter tells the two apart, so that every
rule is stated once.

**The rules** follow the constructs of steps. For a construct whose outcome is determined
the rule is an equivalence, and rewriting with the rules turns a claim on a step into a
claim on the steps of others that it does in between. Only a loop needs an invariant
(`Step.ends_forM`).

**Two steps** (`Step.Tracks`): one step ends in whatever way another one does, where the
other one ends at all, unless both come to an event at which they may part. If there is no
such event, the one refines the other (`Step.Refines`): more depth refines less.
-/

set_option autoImplicit false

namespace FeatureAssembly

/-- The progress with one more event. -/
def Progress.note (p : Progress) (e : Event) : Progress := { p with trace := e :: p.trace }

/-- The progress with another session. -/
def Progress.onSession (p : Progress) (f : Session → Session) : Progress :=
  { p with session := f p.session }

/-- The progress with an identity in flight. -/
def Progress.enter (p : Progress) (id : Identity) : Progress :=
  { p with inFlight := p.inFlight.add id }

/-- The progress with an identity out of flight. -/
def Progress.leave (p : Progress) (id : Identity) : Progress :=
  { p with inFlight := p.inFlight.erase id }

section Fields

variable (p : Progress) (id : Identity)

@[simp] theorem Progress.session_enter : (p.enter id).session = p.session := rfl
@[simp] theorem Progress.inFlight_enter : (p.enter id).inFlight = p.inFlight.add id := rfl
@[simp] theorem Progress.inFlight_leave : (p.leave id).inFlight = p.inFlight.erase id := rfl

end Fields

namespace Step

variable {α β : Type} {total : Prop} {p : Progress}

/-- What is to hold after a step, told apart by its outcome. -/
def either (ok : α → Progress → Prop) (error : AssemblyError → Progress → Prop) :
    Except AssemblyError α → Progress → Prop
  | .ok a, p => ok a p
  | .error e, p => error e p

@[simp] theorem either_ok {ok : α → Progress → Prop} {error : AssemblyError → Progress → Prop}
    (a : α) : either ok error (.ok a) p ↔ ok a p := Iff.rfl

/-- **How a step ends**: as `post` says, whenever it ends, and if `total` it does end. -/
def Ends (total : Prop) (x : Step α) (p : Progress)
    (post : Except AssemblyError α → Progress → Prop) : Prop :=
  match x p with
  | none => ¬ total
  | some (r, p') => post r p'

/-! ## Consequences -/

theorem Ends.mono {x : Step α} {post post' : Except AssemblyError α → Progress → Prop}
    (h : Ends total x p post) (imp : ∀ r p', post r p' → post' r p') : Ends total x p post' := by
  unfold Ends at h ⊢
  cases hx : x p with
  | none => rwa [hx] at h
  | some rp => rw [hx] at h; exact imp _ _ h

/-- What is known of the end of a step, and what is known of it if it ends. -/
theorem Ends.and {x : Step α} {post post' : Except AssemblyError α → Progress → Prop}
    (h : Ends total x p post) (h' : Ends False x p post') :
    Ends total x p fun r p' => post r p' ∧ post' r p' := by
  unfold Ends at h h' ⊢
  cases hx : x p with
  | none => rwa [hx] at h
  | some rp => rw [hx] at h h'; exact ⟨h, h'⟩

theorem Ends.of_eq_some {x : Step α} {post : Except AssemblyError α → Progress → Prop}
    (h : Ends total x p post) {r : Except AssemblyError α} {p' : Progress}
    (hx : x p = some (r, p')) : post r p' := by
  unfold Ends at h
  rwa [hx] at h

theorem ends_true_iff {x : Step α} {post : Except AssemblyError α → Progress → Prop} :
    Ends True x p post ↔ ∃ r p', x p = some (r, p') ∧ post r p' := by
  unfold Ends
  cases x p with
  | none => simp
  | some rp => exact ⟨fun h => ⟨_, _, rfl, h⟩, fun ⟨_, _, h, hp⟩ => by cases h; exact hp⟩

theorem Ends.exists_eq_some {x : Step α} {post : Except AssemblyError α → Progress → Prop}
    (h : Ends True x p post) : ∃ r, x p = some r := by
  obtain ⟨r, p', hx, -⟩ := ends_true_iff.1 h
  exact ⟨(r, p'), hx⟩

/-! ## Rules -/

section Rules

variable {post : Except AssemblyError α → Progress → Prop}

theorem bind_apply (x : Step β) (f : β → Step α) :
    (x >>= f) p = (x p).bind fun rp =>
      match rp.1 with
      | .ok b => f b rp.2
      | .error e => some (.error e, rp.2) := by
  show (x p).bind _ = _
  congr 1
  funext rp
  obtain ⟨r, p'⟩ := rp
  cases r <;> rfl

theorem ends_bind (x : Step β) (f : β → Step α) :
    Ends total (x >>= f) p post ↔
      Ends total x p (either (fun b p' => Ends total (f b) p' post) fun e => post (.error e)) := by
  unfold Ends
  rw [bind_apply]
  cases x p with
  | none => rfl
  | some rp => obtain ⟨r, p'⟩ := rp; cases r <;> rfl

theorem ends_pure (a : α) : Ends total (pure a) p post ↔ post (.ok a) p := Iff.rfl

theorem ends_conclude (r : Except AssemblyError α) :
    Ends total (conclude r) p post ↔ post r p := Iff.rfl

theorem ends_attempt (x : Step α) {post : Except AssemblyError (Except AssemblyError α) → Progress → Prop} :
    Ends total (attempt x) p post ↔ Ends total x p fun r => post (.ok r) := by
  unfold Ends attempt
  cases x p <;> rfl

theorem ends_ite {c : Prop} [Decidable c] (x y : Step α) :
    Ends total (if c then x else y) p post ↔
      if c then Ends total x p post else Ends total y p post := by
  split <;> rfl

end Rules

section Primitives

variable {post : Except AssemblyError Unit → Progress → Prop}

theorem ends_record (e : Event) : Ends total (record e) p post ↔ post (.ok ()) (p.note e) :=
  Iff.rfl

theorem ends_update (f : Session → Session) :
    Ends total (update f) p post ↔ post (.ok ()) (p.onSession f) := Iff.rfl

theorem ends_updateStore (key : ModuleKey) (f : FeatureStore → FeatureStore) :
    Ends total (updateStore key f) p post ↔
      post (.ok ()) (p.onSession fun s => s.modifyStore key f) := Iff.rfl

theorem ends_enter (id : Identity) : Ends total (enter id) p post ↔ post (.ok ()) (p.enter id) :=
  Iff.rfl

theorem ends_leave (id : Identity) : Ends total (leave id) p post ↔ post (.ok ()) (p.leave id) :=
  Iff.rfl

theorem ends_session {post : Except AssemblyError Session → Progress → Prop} :
    Ends total session p post ↔ post (.ok p.session) p := Iff.rfl

theorem ends_store (key : ModuleKey) {post : Except AssemblyError FeatureStore → Progress → Prop} :
    Ends total (store key) p post ↔ post (.ok (p.session.store key)) p := Iff.rfl

theorem ends_isInFlight (id : Identity) {post : Except AssemblyError Bool → Progress → Prop} :
    Ends total (isInFlight id) p post ↔ post (.ok (p.inFlight.contains id)) p := Iff.rfl

theorem ends_insertAssembled (key : ModuleKey) (scope : Scope) (location : String) (f : Feature)
    {post : Except AssemblyError Feature → Progress → Prop} :
    Ends total (insertAssembled key scope location f) p post ↔
      post (.ok ((((p.session.store key).assembled scope).get? location).getD f))
        (p.onSession fun s => s.modifyStore key fun t => t.recordAssembled scope location f) :=
  Iff.rfl

/-- **A loop** keeps an invariant on what is still to be done. -/
theorem ends_forM {f : β → Step Unit} {l : List β} (inv : List β → Progress → Prop)
    (start : inv l p) (done : ∀ p, inv [] p → post (.ok ()) p)
    (step : ∀ b rest p, b ∈ l → inv (b :: rest) p →
      Ends total (f b) p (either (fun _ => inv rest) fun e => post (.error e))) :
    Ends total (l.forM f) p post := by
  induction l generalizing p with
  | nil => exact done p start
  | cons b rest ih =>
    rw [show (b :: rest).forM f = (f b >>= fun _ => rest.forM f) from rfl, ends_bind]
    refine (step b rest p List.mem_cons_self start).mono fun r p' h => ?_
    cases r with
    | error e => exact h
    | ok u => exact ih h fun c rest' p hc => step c rest' p (List.mem_cons_of_mem _ hc)

/-- **A loop** gets done what each round gets done, if later rounds do not undo it. -/
theorem ends_forM_done {f : β → Step Unit} {l : List β} {rel : Progress → Progress → Prop}
    {done : β → Progress → Prop} {failed : AssemblyError → Progress → Prop} (refl : rel p p)
    (trans : ∀ q q', rel p q → rel q q' → rel p q')
    (keeps : ∀ b q q', rel q q' → done b q → done b q')
    (round : ∀ b q, b ∈ l → rel p q →
      Ends total (f b) q (either (fun _ q' => rel q q' ∧ done b q') failed)) :
    Ends total (l.forM f) p (either (fun _ q => rel p q ∧ ∀ b ∈ l, done b q) failed) := by
  refine ends_forM (fun rest q => rel p q ∧ ∀ b ∈ l, b ∈ rest ∨ done b q)
    ⟨refl, fun b hb => .inl hb⟩ (fun q h => ⟨h.1, fun b hb => (h.2 b hb).resolve_left nofun⟩)
    fun b rest q hb h => (round b q hb h.1).mono fun r q' h' => ?_
  cases r with
  | error e => exact h'
  | ok u =>
    refine ⟨trans q q' h.1 h'.1, fun c hc => ?_⟩
    rcases h.2 c hc with hm | hd
    · rcases List.mem_cons.1 hm with rfl | hm
      · exact .inr h'.2
      · exact .inl hm
    · exact .inr (keeps c q q' h'.1 hd)

end Primitives

/-! ## Two steps -/

/-- A step that adds to the trace, and takes nothing away. -/
def Grows (x : Step α) : Prop := ∀ p r, x p = some r → p.trace <:+ r.2.trace

/-- **One step refines another** if it ends like that one wherever that one ends. -/
def Refines (x y : Step α) : Prop := ∀ p r, y p = some r → x p = some r

/-- **One step tracks another up to some events**: it ends like that one wherever that one
ends, unless both do the same up to an event at which they may part. -/
structure Tracks (parts : Event → Prop) (x y : Step α) : Prop where
  left : Grows x
  right : Grows y
  tracks : ∀ p r, y p = some r → x p = some r ∨
    ∃ e before, parts e ∧ p.trace <:+ before ∧ e :: before <:+ r.2.trace ∧
      ∀ r', x p = some r' → e :: before <:+ r'.2.trace

/-- What is done behind the first of two steps adds to its trace. -/
theorem exists_first {x : Step β} {f : β → Step α} (hf : ∀ b, Grows (f b))
    {r : Except AssemblyError α × Progress} (hr : (x >>= f) p = some r) :
    ∃ a, x p = some a ∧ a.2.trace <:+ r.2.trace := by
  rw [bind_apply] at hr
  obtain ⟨⟨a, q⟩, hx, hr⟩ := Option.bind_eq_some_iff.1 hr
  refine ⟨(a, q), hx, ?_⟩
  cases a with
  | error e => cases hr; exact List.suffix_refl _
  | ok b => exact hf b q r hr

theorem Grows.bind {x : Step β} {f : β → Step α} (h : Grows x) (hf : ∀ b, Grows (f b)) :
    Grows (x >>= f) := fun p r hr => by
  obtain ⟨a, hx, grown⟩ := exists_first hf hr
  exact (h p a hx).trans grown

theorem Grows.ends {x : Step α} (h : Grows x) : Ends False x p fun _ q => p.trace <:+ q.trace := by
  unfold Ends
  cases hx : x p with
  | none => exact id
  | some r => exact h p r hx

theorem Grows.exhausted : Grows (Step.exhausted : Step α) := fun _ _ hr => nomatch hr

namespace Tracks

variable {parts : Event → Prop}

/-- Steps that never part refine each other. -/
theorem refines {x y : Step α} (h : Tracks parts x y) (never : ∀ e, ¬ parts e) : Refines x y :=
  fun p r hr => (h.tracks p r hr).resolve_right fun ⟨e, _, he, _⟩ => never e he

theorem exhausted {x : Step α} (h : Grows x) : Tracks parts x Step.exhausted :=
  ⟨h, .exhausted, fun _ _ hr => nomatch hr⟩

/-- A step that is the same on both sides. -/
theorem same {x : Step α} (h : Grows x) : Tracks parts x x := ⟨h, h, fun _ _ hr => .inl hr⟩

/-- A step that does nothing that is noted. -/
theorem quiet {x : Step α} (h : ∀ p r, x p = some r → r.2.trace = p.trace) : Tracks parts x x :=
  same fun p r hr => h p r hr ▸ List.suffix_refl _

theorem pure (a : α) : Tracks parts (pure a : Step α) (pure a) :=
  quiet fun _ _ h => by cases h; rfl

theorem conclude (r : Except AssemblyError α) : Tracks parts (conclude r) (conclude r) :=
  quiet fun _ _ h => by cases h; rfl

theorem store (key : ModuleKey) : Tracks parts (store key) (store key) :=
  quiet fun _ _ h => by cases h; rfl

theorem session : Tracks parts Step.session Step.session :=
  quiet fun _ _ h => by cases h; rfl

theorem isInFlight (id : Identity) : Tracks parts (isInFlight id) (isInFlight id) :=
  quiet fun _ _ h => by cases h; rfl

theorem update (f : Session → Session) : Tracks parts (update f) (update f) :=
  quiet fun _ _ h => by cases h; rfl

theorem insertAssembled (key : ModuleKey) (scope : Scope) (location : String) (f : Feature) :
    Tracks parts (insertAssembled key scope location f) (insertAssembled key scope location f) :=
  quiet fun _ _ h => by cases h; rfl

theorem enter (id : Identity) : Tracks parts (enter id) (enter id) :=
  quiet fun _ _ h => by cases h; rfl

theorem leave (id : Identity) : Tracks parts (leave id) (leave id) :=
  quiet fun _ _ h => by cases h; rfl

theorem record (e : Event) : Tracks parts (record e) (record e) :=
  same fun p _ h => by cases h; exact List.suffix_cons e p.trace

theorem bind {x y : Step β} {f g : β → Step α} (h : Tracks parts x y)
    (hf : ∀ b, Tracks parts (f b) (g b)) : Tracks parts (x >>= f) (y >>= g) where
  left := h.left.bind fun b => (hf b).left
  right := h.right.bind fun b => (hf b).right
  tracks := by
    intro p r hr
    obtain ⟨⟨a, q⟩, hy, grown⟩ := exists_first (fun b => (hf b).right) hr
    rcases h.tracks p _ hy with hx | ⟨e, before, he, start, there, here⟩
    · rw [bind_apply, hy] at hr
      cases a with
      | error err => exact .inl (by rw [bind_apply, hx]; exact hr)
      | ok b =>
        have step : (x >>= f) p = f b q := by rw [bind_apply, hx]; rfl
        rw [step]
        refine ((hf b).tracks q r hr).imp_right ?_
        rintro ⟨e, before, he, start, there, here⟩
        exact ⟨e, before, he, (h.right p _ hy).trans start, there, here⟩
    · refine .inr ⟨e, before, he, start, there.trans grown, fun r' hr' => ?_⟩
      obtain ⟨a', hx', grown'⟩ := exists_first (fun b => (hf b).left) hr'
      exact (here a' hx').trans grown'

/-- Steps that note an event and get an answer may part at the event if the answers differ. -/
theorem answered {e : Event} {r r' : Except AssemblyError β} {f g : β → Step α}
    (h : r ≠ r' → parts e) (hf : ∀ b, Tracks parts (f b) (g b)) :
    Tracks parts (Step.record e >>= fun _ => Step.conclude r >>= f)
      (Step.record e >>= fun _ => Step.conclude r' >>= g) := by
  by_cases same : r = r'
  · subst same
    exact .bind (.record e) fun _ => .bind (.conclude r) hf
  · have left : Grows (Step.conclude r >>= f) := (bind (conclude r) hf).left
    have right : Grows (Step.conclude r' >>= g) := (bind (conclude r') hf).right
    have noted : Tracks parts (Step.record e) (Step.record e) := .record e
    refine ⟨noted.left.bind fun _ => left, noted.right.bind fun _ => right,
      fun p a ha => .inr ⟨e, p.trace, h same, List.suffix_refl _, ?_, fun a' ha' => ?_⟩⟩
    · exact right (p.note e) a ha
    · exact left (p.note e) a' ha'

theorem attempt {x y : Step α} (h : Tracks parts x y) :
    Tracks parts (attempt x) (attempt y) where
  left p r hr := by
    obtain ⟨a, hx, rfl⟩ := Option.map_eq_some_iff.1 hr
    exact h.left p a hx
  right p r hr := by
    obtain ⟨a, hy, rfl⟩ := Option.map_eq_some_iff.1 hr
    exact h.right p a hy
  tracks p r hr := by
    obtain ⟨a, hy, rfl⟩ := Option.map_eq_some_iff.1 hr
    rcases h.tracks p a hy with hx | ⟨e, before, he, start, there, here⟩
    · exact .inl (Option.map_eq_some_iff.2 ⟨a, hx, rfl⟩)
    · refine .inr ⟨e, before, he, start, there, fun r' hr' => ?_⟩
      obtain ⟨a', hx, rfl⟩ := Option.map_eq_some_iff.1 hr'
      exact here a' hx

theorem ite {c : Prop} [Decidable c] {x y x' y' : Step α} (h : Tracks parts x y)
    (h' : Tracks parts x' y') : Tracks parts (if c then x else x') (if c then y else y') := by
  split
  · exact h
  · exact h'

theorem forM {f g : β → Step Unit} (h : ∀ b, Tracks parts (f b) (g b)) (l : List β) :
    Tracks parts (l.forM f) (l.forM g) := by
  induction l with
  | nil => exact .pure ()
  | cons b rest ih => exact bind (h b) fun _ => ih

end Tracks

end Step

end FeatureAssembly
