import LoxLang.Proofs.Loops.Pairs
import LoxLang.Proofs.Run.Valid

/-!
# A plain run and a direct run in step

`Eval.Tandem` relates a plain run and a direct run that start on machines that hold the same. Both end the same way,
with values that correspond or for one reason, and leave machines that hold the same. The rules follow the primitive
steps of runs.

* **`Eval.Tandem.bind`** — one run behind another.
* **`Eval.Tandem.openSpare`** — only the plain run opens a scope.
* **`Runner.lookUp_tandem`**, **`Runner.assign_tandem`** — references in the scopes of both runs.
-/

namespace LoxLang

/-! ## Machines

Both machines hold the same, print the same and have read the clock equally often. The environments differ by spare
frames. -/

section Machines

variable (chosen : SourceStmt → Bool) (W : Pairing)

/-- Machines that hold the same, have printed the same and have read the clock as often. -/
structure Machine.Abreast (m m' : Machine) : Prop where
  heap : m.heap.Abreast chosen W m'.heap
  printed : m'.printed = m.printed
  readings : m'.readings = m.readings

/-- Machines at a place within scopes. -/
structure Machine.Beside (kept : Bool) (S S' : Scopes) (m m' : Machine) : Prop where
  abreast : m.Abreast chosen W m'
  environment : Environment.Abreast W kept S S' m.environment m'.environment

/-- What two runs leave: machines that hold the same, and both environments as they were. -/
structure Machine.Moves (m m' : Machine) (W₁ : Pairing) (n n' : Machine) : Prop where
  grows : W.Grows W₁
  abreast : n.Abreast chosen W₁ n'
  left : n.environment = m.environment
  right : n'.environment = m'.environment

end Machines

section

variable {chosen : SourceStmt → Bool} {W W₁ W₂ : Pairing} {kept : Bool} {S S' : Scopes}
  {m m' n n' o o' : Machine}

/-- What machines hold does not depend on where they are. -/
theorem Machine.Abreast.move (h : m.Abreast chosen W m') (env env' : Environment) :
    Machine.Abreast chosen W { m with environment := env } { m' with environment := env' } :=
  ⟨h.heap, h.printed, h.readings⟩

theorem Machine.Moves.refl (h : m.Abreast chosen W m') : Machine.Moves chosen W m m' W m m' :=
  ⟨.refl W, h, rfl, rfl⟩

theorem Machine.Moves.trans (h : Machine.Moves chosen W m m' W₁ n n')
    (h' : Machine.Moves chosen W₁ n n' W₂ o o') : Machine.Moves chosen W m m' W₂ o o' :=
  ⟨h.grows.trans h'.grows, h'.abreast, h'.left.trans h.left, h'.right.trans h.right⟩

/-- Runs leave both machines at the places where they began. -/
theorem Machine.Beside.move (h : Machine.Beside chosen W kept S S' m m')
    (hmoves : Machine.Moves chosen W m m' W₁ n n') : Machine.Beside chosen W₁ kept S S' n n' := by
  refine ⟨hmoves.abreast, ?_⟩
  rw [hmoves.left, hmoves.right]
  exact h.environment.mono hmoves.grows

end

/-! ## Results

The relation between two runs is asked for from machines that hold the same. It says how they end and that the machines
hold the same again, with more addresses that correspond. -/

namespace Eval

variable {α β γ δ : Type}

/-- Both runs give results that correspond, or both stop for one reason. -/
inductive EndsAlike (R : α → β → Prop) : Except Stop α → Except Stop β → Prop where
  | ok {a : α} {b : β} (h : R a b) : EndsAlike R (.ok a) (.ok b)
  | stop (stop : Stop) : EndsAlike R (.error stop) (.error stop)

/-- The relation between results may be weakened. -/
theorem EndsAlike.mono {R R' : α → β → Prop} {r : Except Stop α} {r' : Except Stop β} (h : EndsAlike R r r')
    (himp : ∀ a b, R a b → R' a b) : EndsAlike R' r r' := by
  cases h with
  | ok hab => exact .ok (himp _ _ hab)
  | stop stop => exact .stop stop

/-- A plain run and a direct run that end the same way. -/
def Tandem (chosen : SourceStmt → Bool) (W : Pairing) (act : Eval α) (act' : Eval β)
    (R : Pairing → α → β → Prop) (m m' : Machine) : Prop :=
  ∃ W₁, Machine.Moves chosen W m m' W₁ (act m).2 (act' m').2 ∧ EndsAlike (R W₁) (act m).1 (act' m').1

namespace Tandem

variable {chosen : SourceStmt → Bool} {W W₁ : Pairing} {kept : Bool} {S S' : Scopes} {m m' n n' : Machine}
  {act : Eval α} {act' : Eval β} {P : Pairing → α → β → Prop} {Q : Pairing → γ → δ → Prop}
  {f : α → Eval γ} {g : β → Eval δ} {v w : Value}

theorem pure (h : m.Abreast chosen W m') {a : α} {b : β} (hab : P W a b) :
    Tandem chosen W (Pure.pure a) (Pure.pure b) P m m' :=
  ⟨W, .refl h, .ok hab⟩

theorem throw (h : m.Abreast chosen W m') (stop : Stop) :
    Tandem chosen W (MonadExcept.throw stop : Eval α) (MonadExcept.throw stop : Eval β) P m m' :=
  ⟨W, .refl h, .stop stop⟩

theorem fail (h : m.Abreast chosen W m') (cause : Cause) (token : Token) :
    Tandem chosen W (Eval.fail cause token : Eval α) (Eval.fail cause token : Eval β) P m m' :=
  throw h _

/-- The second runs begin on the machines that the first ones leave. -/
theorem bind (h : Tandem chosen W act act' P m m')
    (hfg : ∀ W₁ n n' a b, Machine.Moves chosen W m m' W₁ n n' → P W₁ a b → Tandem chosen W₁ (f a) (g b) Q n n') :
    Tandem chosen W (act >>= f) (act' >>= g) Q m m' := by
  obtain ⟨W₁, hmoves, hends⟩ := h
  unfold Tandem
  rw [bind_apply, bind_apply]
  revert hmoves hends
  rcases act m with ⟨r, n⟩
  rcases act' m' with ⟨r', n'⟩
  intro hmoves hends
  cases hends with
  | stop stop => exact ⟨W₁, hmoves, .stop stop⟩
  | ok hab =>
    obtain ⟨W₂, hmoves', hends'⟩ := hfg W₁ n n' _ _ hmoves hab
    exact ⟨W₂, hmoves.trans hmoves', hends'⟩

theorem map {f : α → γ} {g : β → δ} (h : Tandem chosen W act act' P m m')
    (hfg : ∀ W₁ a b, W.Grows W₁ → P W₁ a b → Q W₁ (f a) (g b)) :
    Tandem chosen W (f <$> act) (g <$> act') Q m m' := by
  rw [map_eq_pure_bind, map_eq_pure_bind]
  exact h.bind fun W₁ n n' a b hmoves hab => .pure hmoves.abreast (hfg W₁ a b hmoves.grows hab)

/-- What is known of the results may be weakened. -/
theorem mono {P' : Pairing → α → β → Prop} (h : Tandem chosen W act act' P m m')
    (himp : ∀ W₁ a b, W.Grows W₁ → P W₁ a b → P' W₁ a b) : Tandem chosen W act act' P' m m' := by
  obtain ⟨W₁, hmoves, hends⟩ := h
  exact ⟨W₁, hmoves, hends.mono fun a b hab => himp W₁ a b hmoves.grows hab⟩

theorem get {f : Machine → Eval γ} {g : Machine → Eval δ} (h : Tandem chosen W (f m) (g m') Q m m') :
    Tandem chosen W (MonadState.get >>= f) (MonadState.get >>= g) Q m m' :=
  h

/-- Both calls are too deep or none is. -/
theorem overflowAt {token : Token} (h : Tandem chosen W act act' P m m') :
    Tandem chosen W (Eval.overflowAt token act) (Eval.overflowAt token act') P m m' := by
  obtain ⟨W₁, hmoves, hends⟩ := h
  unfold Tandem Eval.overflowAt
  revert hmoves hends
  rcases act m with ⟨r, n⟩
  rcases act' m' with ⟨r', n'⟩
  intro hmoves hends
  cases hends with
  | ok hab => exact ⟨W₁, hmoves, .ok hab⟩
  | stop stop => cases stop <;> exact ⟨W₁, hmoves, .stop _⟩

/-! ### Scopes

A block opens a frame on both sides, or on the side of the plain run only. -/

theorem within {env env' : Environment}
    (h : Tandem chosen W act act' P { m with environment := env } { m' with environment := env' }) :
    Tandem chosen W (Eval.within env act) (Eval.within env' act') P m m' := by
  obtain ⟨W₁, hmoves, hends⟩ := h
  exact ⟨W₁, ⟨hmoves.grows, hmoves.abreast.move _ _, rfl, rfl⟩, hends⟩

/-- The plain run opens a scope, the direct run stays where it is. -/
theorem openSpare (h : Machine.Beside chosen W kept S S' m m')
    (hbody : ∀ W₁ n, W.Grows W₁ → Machine.Beside chosen W₁ false ([] :: S) S' n m' →
      Tandem chosen W₁ act act' P n m') :
    Tandem chosen W
      (do
        let frame ← Eval.alloc (.frame [])
        Eval.within (frame :: (← MonadState.get).environment) act)
      act' P m m' := by
  obtain ⟨W₁, hgrows, hspare, hheap⟩ := h.abreast.heap.allocSpare
  obtain ⟨W₂, hmoves, hends⟩ := hbody W₁
    { m with
      heap := (m.heap.alloc (.frame [])).2
      environment := m.heap.cells.size :: m.environment } hgrows
    ⟨⟨hheap, h.abreast.printed, h.abreast.readings⟩, .skip hspare (h.environment.mono hgrows)⟩
  exact ⟨W₂, ⟨hgrows.trans hmoves.grows, hmoves.abreast.move _ _, rfl, hmoves.right⟩, hends⟩

/-! ### The heap

Both sides write to addresses that correspond. -/

theorem alloc (h : m.Abreast chosen W m') {k k' : Cell} (hkind : k.Abreast chosen W k') :
    Tandem chosen W (Eval.alloc k) (Eval.alloc k') (fun W₁ a b => W₁.twin a b) m m' := by
  obtain ⟨W₁, hgrows, htwin, hheap⟩ := h.heap.alloc hkind
  exact ⟨W₁, ⟨hgrows, ⟨hheap, h.printed, h.readings⟩, rfl, rfl⟩, .ok htwin⟩

/-- A name gets values that correspond. -/
theorem define (h : m.Abreast chosen W m') {a b : Address} (hab : W.twin a b) (name : String)
    (hvw : v.Abreast chosen W w) :
    Tandem chosen W (Eval.define a name v) (Eval.define b name w) (fun _ _ _ => True) m m' :=
  ⟨W, ⟨.refl W, ⟨h.heap.define hab name hvw, h.printed, h.readings⟩, rfl, rfl⟩, .ok trivial⟩

/-- A field gets values that correspond. -/
theorem setField (h : m.Abreast chosen W m') {a b : Address} (hab : W.twin a b) (name : String)
    (hvw : v.Abreast chosen W w) :
    Tandem chosen W (Eval.setField a name v) (Eval.setField b name w) (fun _ _ _ => True) m m' :=
  ⟨W, ⟨.refl W, ⟨h.heap.setField hab name hvw, h.printed, h.readings⟩, rfl, rfl⟩, .ok trivial⟩

theorem print (h : m.Abreast chosen W m') {text text' : String} (htext : text' = text) :
    Tandem chosen W (Eval.print text) (Eval.print text') (fun _ _ _ => True) m m' := by
  have hprinted : m'.printed.push text' = m.printed.push text := by rw [h.printed, htext]
  exact ⟨W, ⟨.refl W, ⟨h.heap, hprinted, h.readings⟩, rfl, rfl⟩, .ok trivial⟩

/-- The clock has been read equally often, so that it shows the same. -/
theorem readClock (h : m.Abreast chosen W m') (settings : Settings) :
    Tandem chosen W (Eval.readClock settings) (Eval.readClock settings) (Value.Abreast chosen) m m' := by
  have hreadings : m'.readings + 1 = m.readings + 1 := by rw [h.readings]
  have hnumber : Value.Abreast chosen W (.number (settings.clock m.readings))
      (.number (settings.clock m'.readings)) := by
    rw [h.readings]
    exact .number _
  exact ⟨W, ⟨.refl W, ⟨h.heap, h.printed, hreadings⟩, rfl, rfl⟩, .ok hnumber⟩

/-! ### Names

By search or by distance, both sides come to frames that correspond. -/

/-- A name that is searched through environments that correspond. -/
theorem read (h : m.Abreast chosen W m') {env env' : Environment}
    (henv : Environment.Abreast W kept S S' env env') (name : Token) :
    Tandem chosen W (Eval.read env name) (Eval.read env' name) (Value.Abreast chosen) m m' := by
  refine get ?_
  have hvalue : Option.Rel (Value.Abreast chosen W) (env.get? m.heap name.lexeme) (env'.get? m'.heap name.lexeme) := by
    rw [Environment.get?_eq_holder, Environment.get?_eq_holder]
    obtain ⟨ha, hb⟩ | ⟨a, b, ha, hb, hab⟩ := optionRel_cases (henv.holder? h.heap name.lexeme)
    · rw [ha, hb]
      exact .none
    · rw [ha, hb]
      exact h.heap.vars hab name.lexeme
  obtain ⟨hv, hw⟩ | ⟨v, w, hv, hw, hvw⟩ := optionRel_cases hvalue
  · rw [hv, hw]
    exact .fail h _ _
  · rw [hv, hw]
    exact .pure h hvw

/-- The name is searched and changed. -/
theorem assign (h : m.Abreast chosen W m') {env env' : Environment}
    (henv : Environment.Abreast W kept S S' env env') (name : Token) (hvw : v.Abreast chosen W w) :
    Tandem chosen W (Eval.assign env name v) (Eval.assign env' name w) (fun _ _ _ => True) m m' := by
  refine get ?_
  obtain ⟨ha, hb⟩ | ⟨a, b, ha, hb, hab⟩ := optionRel_cases (henv.holder? h.heap name.lexeme)
  · rw [ha, hb]
    exact .fail h _ _
  · rw [ha, hb]
    exact .define h hab _ hvw

/-- A name in frames that correspond. -/
theorem readAt (h : m.Abreast chosen W m') {env env' : Environment} {d d' : Nat} {a b : Address}
    (ha : env[d]? = some a) (hb : env'[d']? = some b) (hab : W.twin a b) (name : String) :
    Tandem chosen W (Eval.readAt env d name) (Eval.readAt env' d' name) (Value.Abreast chosen) m m' := by
  refine get ?_
  unfold Environment.getAt
  rw [Environment.frameAt_of_getElem? ha, Environment.frameAt_of_getElem? hb]
  simp only [Bind.bind, Except.bind]
  obtain ⟨hv, hw⟩ | ⟨v, w, hv, hw, hvw⟩ := optionRel_cases (h.heap.vars hab name)
  · rw [hv, hw]
    exact .throw h _
  · rw [hv, hw]
    exact .pure h hvw

/-- The name is changed in frames that correspond. -/
theorem assignAt (h : m.Abreast chosen W m') {env env' : Environment} {d d' : Nat} {a b : Address}
    (ha : env[d]? = some a) (hb : env'[d']? = some b) (hab : W.twin a b) (name : String)
    (hvw : v.Abreast chosen W w) :
    Tandem chosen W (Eval.assignAt env d name v) (Eval.assignAt env' d' name w) (fun _ _ _ => True) m m' := by
  unfold Eval.assignAt
  rw [Environment.frameAt_of_getElem? ha, Environment.frameAt_of_getElem? hb]
  exact define h hab name hvw

/-- A declaration in the innermost scope, if its frames correspond. -/
theorem declare (h : Machine.Beside chosen W true S S' m m') (name : Token) (hvw : v.Abreast chosen W w) :
    Tandem chosen W (Eval.declare name v) (Eval.declare name w) (fun _ _ _ => True) m m' := by
  obtain ⟨a, outer, b, outer', henv, henv', hab⟩ := h.environment.head
  refine get ?_
  rw [henv, henv']
  exact define h.abreast hab name.lexeme hvw

/-- A name at the distance of the nearest scope that declares it. -/
theorem readHops (h : m.Abreast chosen W m') {env env' : Environment}
    (henv : Environment.Abreast W kept S S' env env') {name : String} {d d' : Nat} (hd : S.hops name = some d)
    (hd' : S'.hops name = some d') :
    Tandem chosen W (Eval.readAt env d name) (Eval.readAt env' d' name) (Value.Abreast chosen) m m' := by
  obtain ⟨d₁, a, b, hd₁, ha, hb, hab⟩ := henv.hops hd
  cases hd₁.symm.trans hd'
  exact readAt h ha hb hab name

end Tandem

end Eval

/-! ## References

A reference has the distance of its own side. If its scopes agree with the environment, the frames that it leads to
correspond. -/

namespace Runner

variable {chosen : SourceStmt → Bool} {W : Pairing} {kept : Bool} {S S' : Scopes} {m m' : Machine}

theorem lookUp_tandem (h : Machine.Beside chosen W kept S S' m m') {r : Reference Hops}
    (hnote : r.note = S.hops r.name.lexeme) :
    Eval.Tandem chosen W (lookUp r) (lookUp (r.placed S')) (Value.Abreast chosen) m m' := by
  unfold lookUp Reference.placed
  dsimp only
  rw [hnote]
  cases hd : S.hops r.name.lexeme with
  | none =>
    rw [h.environment.hops_none hd]
    exact .read h.abreast (.globals h.abreast.heap.globals) r.name
  | some d =>
    obtain ⟨d', a, b, hd', ha, hb, hab⟩ := h.environment.hops hd
    rw [hd']
    exact Eval.Tandem.get (.readAt h.abreast ha hb hab r.name.lexeme)

theorem assign_tandem (h : Machine.Beside chosen W kept S S' m m') {r : Reference Hops}
    (hnote : r.note = S.hops r.name.lexeme) {v w : Value} (hvw : v.Abreast chosen W w) :
    Eval.Tandem chosen W (assign r v) (assign (r.placed S') w) (fun _ _ _ => True) m m' := by
  unfold assign Reference.placed
  dsimp only
  rw [hnote]
  cases hd : S.hops r.name.lexeme with
  | none =>
    rw [h.environment.hops_none hd]
    exact .assign h.abreast (.globals h.abreast.heap.globals) r.name hvw
  | some d =>
    obtain ⟨d', a, b, hd', ha, hb, hab⟩ := h.environment.hops hd
    rw [hd']
    exact Eval.Tandem.get (.assignAt h.abreast ha hb hab r.name.lexeme hvw)

end Runner

end LoxLang
