/-
# What a moved value has in common with the value

Neither a text nor a comparison nor a capsule can tell a value from the same
value with the frames of its closures moved, and only where its own closures go
matters (`Value.relocate_congr`). The second half says which closures a result
can hold: none that its parts do not hold.

Key theorems: `Value.relocate_congr`, `Value.relocate_relocate`, `Value.same_relocate`,
`Operator.apply_relocate`, `Capsule.run_relocate`, `Capsule.mem_places_run`.
-/
import Playscript.Relocation

namespace Playscript

variable {place moved : Slot → Slot}

/-! ### Values -/

namespace Value

theorem relocateAll_eq_map (place : Slot → Slot) (vs : List Value) :
    relocateAll place vs = vs.map (relocate place) := by
  induction vs with
  | nil => rfl
  | cons v vs ih => simp [relocateAll, ih]

@[simp] theorem length_relocateAll (place : Slot → Slot) (vs : List Value) :
    (relocateAll place vs).length = vs.length := by simp [relocateAll_eq_map]

@[simp] theorem relocateAll_append (place : Slot → Slot) (vs ws : List Value) :
    relocateAll place (vs ++ ws) = relocateAll place vs ++ relocateAll place ws := by
  simp [relocateAll_eq_map]

mutual

/-- Where the closures go is all that matters. -/
theorem relocate_congr : ∀ v : Value, (∀ c ∈ v.places, place c.frame = moved c.frame) →
    v.relocate place = v.relocate moved
  | null, _ | number _, _ | string _, _ | bool _, _ => rfl
  | array items, h => congrArg array (relocateAll_congr items h)
  | capsule ⟨_, params, _⟩, h => by
    have hparams := relocateParams_congr params fun c hc => h c (List.mem_append_right _ hc)
    rw [relocate, relocate, hparams]
  | closure c, h => by
    have hframe : place c.frame = moved c.frame := h c (by simp [places, closures])
    rw [relocate, relocate, Closure.relocate, Closure.relocate, hframe]

theorem relocateAll_congr : ∀ vs : List Value,
    (∀ c ∈ placesAll vs, place c.frame = moved c.frame) →
    relocateAll place vs = relocateAll moved vs
  | [], _ => rfl
  | v :: rest, h => by
    have hv := relocate_congr v fun c hc => h c (mem_placesAll_cons.2 (.inl hc))
    have hrest := relocateAll_congr rest fun c hc => h c (mem_placesAll_cons.2 (.inr hc))
    rw [relocateAll, relocateAll, hv, hrest]

theorem relocateParams_congr : ∀ ps : List (CapsuleParam Value),
    (∀ c ∈ buriedParams ps, place c.frame = moved c.frame) →
    relocateParams place ps = relocateParams moved ps
  | [], _ => rfl
  | ⟨_, _, none⟩ :: rest, h => by
    have hrest := relocateParams_congr rest h
    rw [relocateParams, relocateParams, hrest]
  | ⟨_, _, some d⟩ :: rest, h => by
    have hd := relocate_congr d fun c hc => h c (List.mem_append_left _ hc)
    have hrest := relocateParams_congr rest fun c hc => h c (List.mem_append_right _ hc)
    rw [relocateParams, relocateParams, hd, hrest]

end

mutual

theorem relocate_relocate (place moved : Slot → Slot) :
    ∀ v : Value, (v.relocate place).relocate moved = v.relocate (moved ∘ place)
  | null | number _ | string _ | bool _ | closure _ => rfl
  | array items => congrArg array (relocateAll_relocateAll place moved items)
  | capsule ⟨_, params, _⟩ => by
    rw [relocate, relocate, relocate, relocateParams_relocateParams place moved params]

theorem relocateAll_relocateAll (place moved : Slot → Slot) : ∀ vs : List Value,
    relocateAll moved (relocateAll place vs) = relocateAll (moved ∘ place) vs
  | [] => rfl
  | v :: rest => by
    rw [relocateAll, relocateAll, relocateAll, relocate_relocate place moved v,
      relocateAll_relocateAll place moved rest]

theorem relocateParams_relocateParams (place moved : Slot → Slot) :
    ∀ ps : List (CapsuleParam Value),
      relocateParams moved (relocateParams place ps) = relocateParams (moved ∘ place) ps
  | [] => rfl
  | ⟨_, _, none⟩ :: rest => by
    rw [relocateParams, relocateParams, relocateParams,
      relocateParams_relocateParams place moved rest]
  | ⟨_, _, some d⟩ :: rest => by
    rw [relocateParams, relocateParams, relocateParams, relocate_relocate place moved d,
      relocateParams_relocateParams place moved rest]

end

/-! ### What cannot tell a moved value -/

@[simp] theorem kindName_relocate (v : Value) : (v.relocate place).kindName = v.kindName := by
  cases v <;> rfl

@[simp] theorem isTruthy_relocate (v : Value) : (v.relocate place).isTruthy = v.isTruthy := by
  cases v <;> rfl

@[simp] theorem isFunction_relocate (v : Value) :
    (v.relocate place).isFunction = v.isFunction := by
  cases v <;> rfl

mutual

@[simp] theorem text_relocate : ∀ v : Value, (v.relocate place).text = v.text
  | null | number _ | string _ | bool _ | closure _ | capsule _ => rfl
  | array items => by rw [relocate, text, text, texts_relocateAll items]

theorem texts_relocateAll : ∀ vs : List Value, texts (relocateAll place vs) = texts vs
  | [] => rfl
  | v :: rest => by rw [relocateAll, texts, texts, text_relocate v, texts_relocateAll rest]

end

mutual

@[simp] theorem same_relocate : ∀ v w : Value,
    (v.relocate place).same (w.relocate moved) = v.same w
  | array xs, array ys => by
    rw [relocate, relocate, same, same, sameAll_relocateAll xs ys]
  | array _, null | array _, number _ | array _, string _ | array _, bool _ => by
    simp only [relocate, same]
  | array _, capsule _ | array _, closure _ => by simp only [relocate, same]
  | null, w | number _, w | string _, w | bool _, w | closure _, w | capsule _, w => by
    cases w <;> simp only [relocate, same, Closure.relocate]

theorem sameAll_relocateAll : ∀ vs ws : List Value,
    sameAll (relocateAll place vs) (relocateAll moved ws) = sameAll vs ws
  | [], [] => rfl
  | [], _ :: _ => rfl
  | _ :: _, [] => rfl
  | v :: vs, w :: ws => by
    rw [relocateAll, relocateAll, sameAll, sameAll, same_relocate v w,
      sameAll_relocateAll vs ws]

end

theorem toNumber_relocate (purpose : String) (v : Value) :
    (v.relocate place).toNumber purpose = v.toNumber purpose := by
  cases v <;> rfl

theorem negated_relocate (v : Value) :
    (v.relocate place).negated = v.negated.map (relocate place) := by
  cases v <;> rfl

theorem item?_relocate (items : List Value) (position : Float) :
    item? (relocateAll place items) position = (item? items position).map (relocate place) := by
  simp only [item?, length_relocateAll]
  split
  · rfl
  · rw [relocateAll_eq_map, List.getElem?_map]

theorem ofReturned_relocate (vs : List Value) :
    ofReturned (relocateAll place vs) = (ofReturned vs).relocate place := by
  rcases vs with _ | ⟨v, _ | ⟨w, vs⟩⟩ <;> rfl

end Value

@[simp] theorem TypeName.admits_relocate (t : TypeName) (v : Value) :
    t.admits (v.relocate place) = t.admits v := by
  induction t generalizing v with
  | named name =>
    cases v with
    | array | capsule | closure =>
      simp only [Value.relocate, TypeName.admits]
      split <;> simp_all
    | _ => rfl
  | array element ih =>
    cases v with
    | array items =>
      simp only [Value.relocate, TypeName.admits, Value.relocateAll_eq_map, List.all_map]
      exact congrArg items.all (funext ih)
    | _ => rfl

/-- The result of an operator moves with its operands. -/
theorem Operator.apply_relocate (op : Operator) (l r : Value) :
    op.apply (l.relocate place) (r.relocate place) =
      (op.apply l r).map (Value.relocate place) := by
  cases op with
  | equal =>
    simp only [Operator.apply, Value.same_relocate]
    rfl
  | add =>
    cases l with
    | string s =>
      show Except.ok (Value.string (s ++ (r.relocate place).text)) = _
      rw [Value.text_relocate]
      rfl
    | _ =>
      cases r with
      | string t =>
        simp only [Operator.apply, Value.relocate]
        simp only [Value.text, Value.texts_relocateAll]
        rfl
      | _ => rfl
  | _ => cases l <;> cases r <;> rfl

/-! ### Capsules -/

namespace Capsule

/-- A capsule that requires its arguments holds no closure. -/
theorem places_requiring (name : String) (params : List (String × String)) (routine : Routine) :
    (Value.capsule (.requiring name params routine)).places = [] := by
  show Value.buriedParams (params.map fun p => ⟨p.1, p.2, none⟩) = []
  induction params with
  | nil => rfl
  | cons p params ih => rwa [List.map_cons, Value.buriedParams]

theorem relocate_requiring (name : String) (params : List (String × String))
    (routine : Routine) :
    (Value.capsule (.requiring name params routine)).relocate place =
      .capsule (.requiring name params routine) := by
  have hparams : Value.relocateParams place (params.map fun p => ⟨p.1, p.2, none⟩) =
      params.map fun p => ⟨p.1, p.2, none⟩ := by
    induction params with
    | nil => rfl
    | cons p params ih => rw [List.map_cons, Value.relocateParams, ih]
  simp only [requiring, Value.relocate, hparams]

theorem bind_relocate (name : String) (ps : List (CapsuleParam Value)) (vs : List Value) :
    bind name (Value.relocateParams place ps) (Value.relocateAll place vs) =
      (bind name ps vs).map (Value.relocateAll place) := by
  induction ps generalizing vs with
  | nil => rfl
  | cons p ps ih =>
    obtain ⟨type, pname, default?⟩ := p
    cases vs with
    | nil =>
      cases default? with
      | none => rfl
      | some d =>
        have hnil := ih []
        simp only [Value.relocateAll] at hnil
        simp only [Value.relocateAll, Value.relocateParams, bind, hnil]
        cases bind name ps [] <;> rfl
    | cons v vs =>
      cases default? <;> simp only [Value.relocateAll, Value.relocateParams, bind, ih vs] <;>
        cases bind name ps vs <;> rfl

theorem numberAt_relocate (name : String) (args : List Value) (position : Nat) :
    numberAt name (Value.relocateAll place args) position = numberAt name args position := by
  simp only [numberAt, Value.relocateAll_eq_map, List.getElem?_map]
  rcases args[position]? with _ | v
  · rfl
  · cases v <;> rfl

/-- What a capsule answers moves with its arguments; the clock is the same. -/
theorem run_relocate (c : Capsule Value) (args : List Value) (clock : Clock) :
    (c.relocate place).run (Value.relocateAll place args) clock =
      (c.run args clock).map fun answer => (answer.1.relocate place, answer.2) := by
  obtain ⟨name, params, routine⟩ := c
  cases routine with
  | pow =>
    simp only [run, relocate, numberAt_relocate]
    rcases numberAt name args 0 with _ | x
    · rfl
    · rcases numberAt name args 1 with _ | y <;> rfl
  | now | date | gather => rfl
  | _ =>
    simp only [run, relocate, numberAt_relocate]
    rcases numberAt name args 0 with _ | x <;> rfl

end Capsule

/-! ### The closures of results -/

theorem Operator.places_apply {op : Operator} {l r v : Value} (h : op.apply l r = .ok v) :
    v.places = [] := by
  unfold Operator.apply at h
  split at h
  case h_8 =>
    split at h <;> cases h
    rfl
  all_goals cases h
  all_goals rfl

theorem Value.places_negated {v w : Value} (h : v.negated = .ok w) : w.places = [] := by
  cases v <;> cases h
  rfl

theorem Value.mem_of_item? {items : List Value} {position : Float} {v : Value}
    (h : item? items position = some v) : v ∈ items := by
  unfold item? at h
  simp only at h
  split at h
  · cases h
  · exact List.mem_of_getElem? h

theorem Value.mem_places_ofReturned {vs : List Value} {c : Closure}
    (h : c ∈ (ofReturned vs).places) : c ∈ placesAll vs := by
  rcases vs with _ | ⟨v, _ | ⟨w, vs⟩⟩
  · cases h
  · exact mem_placesAll.2 ⟨v, List.mem_cons_self, h⟩
  · exact h

theorem Value.mem_buriedParams {ps : List (CapsuleParam Value)} {c : Closure} :
    c ∈ buriedParams ps ↔ ∃ p ∈ ps, ∃ d, p.default? = some d ∧ c ∈ d.places := by
  induction ps with
  | nil => simp [buriedParams]
  | cons p ps ih =>
    obtain ⟨type, name, default?⟩ := p
    cases default? with
    | none => simp [buriedParams, ih]
    | some d => simp [buriedParams, ih, places, or_assoc]

/-- Every argument that is bound is given, or the default of a parameter. -/
theorem Capsule.mem_of_bind {name : String} {ps : List (CapsuleParam Value)}
    {vs ws : List Value} {w : Value} (h : bind name ps vs = .ok ws) (hw : w ∈ ws) :
    w ∈ vs ∨ ∃ p ∈ ps, p.default? = some w := by
  induction ps generalizing vs ws with
  | nil => cases h; cases hw
  | cons p ps ih =>
    have hrest : (∃ q ∈ ps, q.default? = some w) → ∃ q ∈ p :: ps, q.default? = some w :=
      fun ⟨q, hq, hd⟩ => ⟨q, List.mem_cons_of_mem _ hq, hd⟩
    cases vs with
    | cons v vs =>
      simp only [bind] at h
      rcases hb : bind name ps vs with _ | rest <;> rw [hb] at h <;> cases h
      rcases List.mem_cons.1 hw with rfl | hw
      · exact .inl List.mem_cons_self
      · exact (ih hb hw).imp (List.mem_cons_of_mem _) hrest
    | nil =>
      simp only [bind] at h
      rcases hd : p.default? with _ | d <;> rw [hd] at h
      · cases h
      · rcases hb : bind name ps [] with _ | rest <;> simp only [hb] at h <;> cases h
        rcases List.mem_cons.1 hw with rfl | hw
        · exact .inr ⟨p, List.mem_cons_self, hd⟩
        · exact (ih hb hw).imp id hrest

theorem Capsule.mem_places_bind {name : String} {ps : List (CapsuleParam Value)}
    {vs ws : List Value} {c : Closure} (h : bind name ps vs = .ok ws)
    (hc : c ∈ Value.placesAll ws) : c ∈ Value.buriedParams ps ∨ c ∈ Value.placesAll vs := by
  obtain ⟨w, hw, hc⟩ := Value.mem_placesAll.1 hc
  rcases mem_of_bind h hw with hw | ⟨p, hp, hd⟩
  · exact .inr (Value.mem_placesAll.2 ⟨w, hw, hc⟩)
  · exact .inl (Value.mem_buriedParams.2 ⟨p, hp, w, hd, hc⟩)

/-- A capsule answers its arguments as an array, or nothing with a closure. -/
theorem Capsule.eq_of_run {c : Capsule Value} {args : List Value} {clock after : Clock}
    {v : Value} (h : c.run args clock = .ok (v, after)) : v = .array args ∨ v.places = [] := by
  obtain ⟨name, params, routine⟩ := c
  cases routine with
  | gather => cases h; exact .inl rfl
  | now | date => cases h; exact .inr rfl
  | pow =>
    simp only [run] at h
    rcases hx : numberAt name args 0 with _ | x <;> rw [hx] at h
    · cases h
    · rcases hy : numberAt name args 1 with _ | y <;> rw [hy] at h <;> cases h
      exact .inr rfl
  | _ =>
    simp only [run] at h
    rcases hx : numberAt name args 0 with _ | x <;> rw [hx] at h <;> cases h
    exact .inr rfl

theorem Capsule.mem_places_run {c : Capsule Value} {args : List Value} {clock after : Clock}
    {v : Value} {d : Closure} (h : c.run args clock = .ok (v, after)) (hd : d ∈ v.places) :
    d ∈ Value.placesAll args := by
  rcases eq_of_run h with rfl | hnone
  · exact hd
  · rw [hnone] at hd; cases hd

/-! ### Tables -/

namespace Bindings

theorem relocate_congr {b : Bindings} (h : ∀ c ∈ b.places, place c.frame = moved c.frame) :
    b.relocate place = b.relocate moved := by
  refine congrArg Bindings.mk (List.map_congr_left fun e he => ?_)
  have hvalue : e.2 ∈ b.values := List.mem_map_of_mem he
  have hmoved := Value.relocate_congr e.2 fun c hc => h c (Value.mem_placesAll.2 ⟨_, hvalue, hc⟩)
  rw [hmoved]

theorem relocate_relocate (place moved : Slot → Slot) (b : Bindings) :
    (b.relocate place).relocate moved = b.relocate (moved ∘ place) := by
  simp [relocate, Value.relocate_relocate]

@[simp] theorem get?_relocate (b : Bindings) (name : String) :
    (b.relocate place).get? name = (b.get? name).map (Value.relocate place) := by
  obtain ⟨entries⟩ := b
  simp only [relocate, get?]
  induction entries with
  | nil => rfl
  | cons e rest ih =>
    simp only [List.map_cons, find]
    split
    · rfl
    · exact ih

@[simp] theorem binds_relocate (b : Bindings) (name : String) :
    (b.relocate place).binds name = b.binds name := by
  simp [binds]

theorem insert_relocate (b : Bindings) (name : String) (v : Value) :
    (b.insert name v).relocate place = (b.relocate place).insert name (v.relocate place) := by
  obtain ⟨entries⟩ := b
  simp only [relocate, insert, Bindings.mk.injEq]
  induction entries with
  | nil => rfl
  | cons e rest ih =>
    simp only [List.map_cons, insertEntry]
    split
    · rfl
    · split
      · rfl
      · rw [List.map_cons, ih]

theorem relocate_ofList (entries : List (String × Value)) :
    (ofList entries).relocate place =
      ofList (entries.map fun e => (e.1, e.2.relocate place)) := by
  have hfold : ∀ b : Bindings,
      (entries.foldl (fun b e => b.insert e.1 e.2) b).relocate place =
        (entries.map fun e => (e.1, e.2.relocate place)).foldl (fun b e => b.insert e.1 e.2)
          (b.relocate place) := by
    induction entries with
    | nil => exact fun _ => rfl
    | cons e rest ih =>
      intro b
      rw [List.map_cons, List.foldl_cons, List.foldl_cons, ih, insert_relocate]
  exact hfold empty

theorem mem_places_ofList {entries : List (String × Value)} {c : Closure}
    (h : c ∈ (ofList entries).places) : ∃ e ∈ entries, c ∈ e.2.places := by
  have hfold : ∀ b : Bindings, c ∈ (entries.foldl (fun b e => b.insert e.1 e.2) b).places →
      c ∈ b.places ∨ ∃ e ∈ entries, c ∈ e.2.places := by
    clear h
    induction entries with
    | nil => exact fun _ h => .inl h
    | cons e rest ih =>
      intro b hb
      rcases ih _ hb with hb | ⟨d, hd, hc⟩
      · rcases mem_places_insert hb with hc | hc
        · exact .inr ⟨e, List.mem_cons_self, hc⟩
        · exact .inl hc
      · exact .inr ⟨d, List.mem_cons_of_mem _ hd, hc⟩
  exact (hfold empty h).resolve_left fun hc => by cases hc

end Bindings

namespace Library

/-- The standard capsules require their arguments. -/
theorem requiring_of_mem {name : String} {cs : List (Capsule Value)}
    (h : capsules? name = some cs) : ∀ c ∈ cs, ∃ n ps r, c = .requiring n ps r := by
  intro c hc
  unfold capsules? at h
  split at h
  · cases h
    simp only [math, List.mem_cons, List.not_mem_nil, or_false] at hc
    rcases hc with rfl | rfl | rfl | rfl | rfl <;> exact ⟨_, _, _, rfl⟩
  · split at h
    · cases h
      simp only [time, List.mem_cons, List.not_mem_nil, or_false] at hc
      rcases hc with rfl | rfl | rfl <;> exact ⟨_, _, _, rfl⟩
    · cases h

theorem places_exports? {name : String} {b : Bindings} (h : exports? name = some b) :
    b.places = [] := by
  obtain ⟨cs, hcs, rfl⟩ := Option.map_eq_some_iff.1 h
  refine List.eq_nil_iff_forall_not_mem.2 fun d hd => ?_
  obtain ⟨e, he, hd⟩ := Bindings.mem_places_ofList hd
  obtain ⟨c, hc, rfl⟩ := List.mem_map.1 he
  obtain ⟨n, ps, r, rfl⟩ := requiring_of_mem hcs c hc
  rw [Capsule.places_requiring] at hd
  cases hd

theorem relocate_exports? {name : String} {b : Bindings} (h : exports? name = some b) :
    b.relocate place = b := by
  obtain ⟨cs, hcs, rfl⟩ := Option.map_eq_some_iff.1 h
  rw [Bindings.relocate_ofList, List.map_map]
  congr 1
  refine List.map_congr_left fun c hc => ?_
  obtain ⟨n, ps, r, rfl⟩ := requiring_of_mem hcs c hc
  exact congrArg (Prod.mk _) (Capsule.relocate_requiring n ps r)

end Library

namespace ModuleCache

theorem relocate_congr {c : ModuleCache}
    (h : ∀ d ∈ Value.placesAll c.values, place d.frame = moved d.frame) :
    c.relocate place = c.relocate moved := by
  refine congrArg (ModuleCache.mk · c.loading) (List.map_congr_left fun e he => ?_)
  have hmoved : e.2.exports.relocate place = e.2.exports.relocate moved :=
    Bindings.relocate_congr fun d hd => by
      obtain ⟨v, hv, hd⟩ := Value.mem_placesAll.1 hd
      exact h d (Value.mem_placesAll.2 ⟨v, List.mem_flatMap.2 ⟨e, he, hv⟩, hd⟩)
  rw [hmoved]

theorem relocate_relocate (place moved : Slot → Slot) (c : ModuleCache) :
    (c.relocate place).relocate moved = c.relocate (moved ∘ place) := by
  simp [relocate, Bindings.relocate_relocate]

theorem get?_relocate (c : ModuleCache) (path : String) :
    (c.relocate place).get? path =
      (c.get? path).map fun m => ⟨m.digest, m.exports.relocate place⟩ := by
  obtain ⟨entries, loading⟩ := c
  simp only [relocate, get?]
  induction entries with
  | nil => rfl
  | cons e rest ih =>
    obtain ⟨key, kept⟩ := e
    simp only [List.map_cons, List.lookup_cons, ih]
    split <;> rfl

theorem insert_relocate (c : ModuleCache) (path digest : String) (exports : Bindings) :
    (c.insert path ⟨digest, exports⟩).relocate place =
      (c.relocate place).insert path ⟨digest, exports.relocate place⟩ := by
  simp only [relocate, insert, List.map_cons, List.filter_map]
  rfl

end ModuleCache

end Playscript
