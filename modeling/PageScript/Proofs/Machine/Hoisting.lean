import PageScript.Proofs.Machine.Closures
import PageScript.Proofs.Syntax.Nesting

/-!
# Proofs/Machine/Hoisting — what is declared before statements run

`Stmt.hoisted` lists the names that a statement has declared before anything runs.  Declaring them
binds these names in one frame and no others, stores the procedures among them, and changes nothing
else about frames and functions (`Stmt.hoists_declareBody`).
-/

namespace PageScript

mutual

/-- The names that a statement declares before it runs. -/
def Stmt.hoisted : Stmt → List Name
  | .dim _ name _ _ | .const _ name _ => [name]
  | .procedure _ decl => [decl.name]
  | .block _ body | .loop _ _ body _ _ | .count _ _ _ _ _ body | .forEach _ _ _ body
  | .withObject _ _ body | .property _ _ (.mk _ _ _ body _) _ | .includeFile _ _ (some body) =>
    Stmt.hoistedIn body
  | .branch _ _ thenBody elseBody => Stmt.hoistedIn thenBody ++ Stmt.hoistedIn elseBody
  | .select _ _ cases => Stmt.hoistedInCases cases
  | .assign .. | .call .. | .redim .. | .classDecl .. | .exit .. | .onError .. | .optionExplicit ..
  | .includeFile _ _ none => []

/-- The names that statements declare before they run, in order. -/
def Stmt.hoistedIn : List Stmt → List Name
  | [] => []
  | stmt :: rest => stmt.hoisted ++ Stmt.hoistedIn rest

/-- The names that the cases of a `select` statement declare. -/
def Stmt.hoistedInCases : List Case → List Name
  | [] => []
  | .mk _ body :: rest => Stmt.hoistedIn body ++ Stmt.hoistedInCases rest

end

/-- A name is bound in what a new entry makes of a dictionary if it was or if it is the new one. -/
theorem Dictionary.mem_names_insert {α : Type} {d : Dictionary α} {name key : Name} {entry : α} :
    key ∈ (d.insert name entry).names ↔ key = name ∨ key ∈ d.names :=
  d.inStep.mem_order_insert

theorem Frames.get_modify_self_cases (fs : Frames) (id : FrameId) (change : Frame → Frame) :
    (fs.modify id change).get id = change (fs.get id) ∨ (fs.modify id change).get id = fs.get id := by
  by_cases live : id.index < fs.size
  · exact .inl (get_modify_self live)
  · have beyond := Nat.le_of_not_lt live
    exact .inr ((get_of_size_le (size_modify.symm ▸ beyond)).trans (get_of_size_le beyond).symm)

/-! ## What is different behind declarations -/

/-- A state in which names have been declared in a frame of another one, and procedures with code of
some kind. -/
structure State.Hoists (code : Stmt → Prop) (c : FrameId) (names : List Name) (s t : State) : Prop where
  size : t.frames.size = s.frames.size
  others : ∀ id, id ≠ c → t.frames.get id = s.frames.get id
  own : t.frames.get c = { s.frames.get c with bindings := (t.frames.get c).bindings }
  names : ∀ name ∈ (t.frames.get c).bindings.names,
    name ∈ (s.frames.get c).bindings.names ∨ name ∈ names
  recalls : s.Recalls t
  /-- A procedure is only stored where none is running. -/
  functions : ∀ id f, t.store.function? id = some f → s.store.function? id = some f ∨
    (s.frames.get c).procedure = none ∧ ∃ decl, f = .script decl c ∧ Stmt.EveryIn code decl.body

namespace State.Hoists

variable {code : Stmt → Prop} {c : FrameId} {names names' : List Name} {s t u : State}

/-- Frames and functions are all that matters. -/
theorem still (hframes : t.frames = s.frames)
    (functions : ∀ id, t.store.function? id = s.store.function? id) : s.Hoists code c names t where
  size := congrArg Frames.size hframes
  others _ _ := hframes ▸ rfl
  own := hframes ▸ rfl
  names _ h := .inl (hframes ▸ h)
  recalls id _ stored := (functions id).trans stored
  functions id _ stored := .inl ((functions id).symm.trans stored)

theorem mono (h : s.Hoists code c names t) (hle : names ⊆ names') : s.Hoists code c names' t :=
  { h with names := fun name hname => (h.names name hname).imp_right (hle ·) }

theorem procedure (h : s.Hoists code c names t) :
    (t.frames.get c).procedure = (s.frames.get c).procedure :=
  (congrArg Frame.procedure h.own).trans rfl

theorem trans (h : s.Hoists code c names t) (h' : t.Hoists code c names' u) :
    s.Hoists code c (names ++ names') u where
  size := h'.size.trans h.size
  others id hid := (h'.others id hid).trans (h.others id hid)
  own := by
    refine h'.own.trans ?_
    rw [h.own]
  names name hname := by
    rw [List.mem_append]
    obtain hname | hname := h'.names name hname
    · exact (h.names name hname).imp_right .inl
    · exact .inr (.inr hname)
  recalls id f stored := h'.recalls id f (h.recalls id f stored)
  functions id f stored := by
    obtain stored | ⟨idle, decl⟩ := h'.functions id f stored
    · exact h.functions id f stored
    · exact .inr ⟨h.procedure ▸ idle, decl⟩

theorem define (s : State) (how : Declaration) (name : Name) (value : Value) :
    s.Hoists code c [name] (s.define c how name value).2 where
  size := Frames.size_modify
  others _ hid := Frames.get_modify_of_ne (Ne.symm hid)
  own := by
    obtain h | h := s.frames.get_modify_self_cases c (·.bind name ⟨s.store.cells.size⟩)
    · exact h.trans (congrArg (Frame.mk · _ _ _ _) (congrArg Frame.bindings h).symm)
    · exact h.trans (congrArg (Frame.mk · _ _ _ _) (congrArg Frame.bindings h).symm)
  names key hkey := by
    obtain h | h := s.frames.get_modify_self_cases c (·.bind name ⟨s.store.cells.size⟩)
    · have hkey : key ∈ ((s.frames.get c).bind name ⟨s.store.cells.size⟩).bindings.names := h ▸ hkey
      exact (Dictionary.mem_names_insert.mp hkey).symm.imp_right List.mem_singleton.mpr
    · exact .inl (h ▸ hkey)
  recalls _ _ stored := stored
  functions _ _ stored := .inl stored

theorem newFunction {decl : Procedure} (idle : (s.frames.get c).procedure = none)
    (hcode : Stmt.EveryIn code decl.body) :
    s.Hoists code c [] (s.newFunction (.script decl c)).2 where
  size := rfl
  others _ _ := rfl
  own := rfl
  names _ h := .inl h
  recalls _ _ stored := Store.function?_newFunction.mpr (.inr stored)
  functions _ _ stored := by
    obtain ⟨-, rfl⟩ | stored := Store.function?_newFunction.mp stored
    · exact .inr ⟨idle, decl, rfl, hcode⟩
    · exact .inl stored

end State.Hoists

/-! ## Declarations -/

/-- A run declares names in a frame, whatever happens in it, and visits no other frame. -/
def Run.Hoists {α : Type} (m : Run α) (code : Stmt → Prop) (c : FrameId) (names : List Name) :
    Prop :=
  ∀ s, m.Meets s
    (fun moment => s.Hoists code c names moment.state ∧ ∀ id, moment.act = .visit id → id = c)
    (fun _ t => s.Hoists code c names t) (s.Hoists code c names)

namespace Run

variable {α β : Type} {code : Stmt → Prop} {c : FrameId} {names names' : List Name}

theorem hoists_pure (a : α) : (pure a : Run α).Hoists code c names :=
  fun _ => meets_pure ⟨.still rfl fun _ => rfl, nofun⟩ (.still rfl fun _ => rfl)

theorem hoists_fail (cause : Fault.Cause) : (fail cause : Run α).Hoists code c names :=
  fun _ => meets_fail ⟨.still rfl fun _ => rfl, nofun⟩ (.still rfl fun _ => rfl)

theorem Hoists.bind {m : Run α} {next : α → Run β} (hm : m.Hoists code c names)
    (hnext : ∀ a, (next a).Hoists code c names') : (m >>= next).Hoists code c (names ++ names') := by
  have first : names ⊆ names ++ names' := List.subset_append_left _ _
  intro s
  refine Meets.bind (q := fun _ t => s.Hoists code c names t)
    ((hm s).mono (fun _ h => ⟨h.1.mono first, h.2⟩) (fun _ _ h => h) fun _ h => h.mono first) ?_
  intro a t _ hst
  exact (hnext a t).mono (fun _ h => ⟨hst.trans h.1, h.2⟩) (fun _ _ h => hst.trans h)
    fun _ h => hst.trans h

theorem Hoists.within {m : Run α} (hm : m.Hoists code c names) (place : Span) :
    (within place m).Hoists code c names :=
  fun s => (hm s).within place

theorem hoists_declare (how : State.Declaration) (name : Name) (value : Value) :
    (declare c how name value).Hoists code c [name] := fun s => by
  have defined : s.Hoists code c [name] (s.define c how name value).2 := .define s how name value
  refine meets_declare ⟨.still rfl fun _ => rfl, nofun⟩ ⟨.still rfl fun _ => rfl, ?_⟩
    (fun _ => ⟨⟨defined, nofun⟩, defined⟩) fun _ => .still rfl fun _ => rfl
  rintro _ ⟨⟩
  rfl

end Run

variable {code : Stmt → Prop} {c : FrameId}

theorem Procedure.hoists_declare {decl : Procedure} (hcode : Stmt.EveryIn code decl.body) :
    (decl.declare c).Hoists code c [decl.name] := fun s => by
  have still : s.Hoists code c [decl.name] s := .still rfl fun _ => rfl
  refine Run.Meets.bind (q := fun here t => here = s.frames.get c ∧ t = s)
    (Run.Meets.visiting ⟨still, fun _ h => by cases h; rfl⟩
      (Run.meets_look ⟨still, nofun⟩ ⟨rfl, rfl⟩)) ?_
  rintro _ _ - ⟨rfl, rfl⟩
  split
  · exact Run.hoists_fail _ _
  · rename_i idle
    have stored := State.Hoists.newFunction (Option.not_isSome_iff_eq_none.mp idle) hcode
    refine Run.Meets.bind (q := fun _ t => t = _)
      (Run.meets_step ⟨still, nofun⟩ ⟨stored.mono (List.nil_subset _), nofun⟩ rfl) ?_
    rintro fid _ - rfl
    have declared : Run.Hoists _ code c ([decl.name] ++ []) :=
      (Run.hoists_declare .unique decl.name (.function fid)).bind fun _ => Run.hoists_pure ()
    exact (declared _).mono (fun _ h => ⟨stored.trans h.1, h.2⟩) (fun _ _ h => stored.trans h)
      fun _ h => stored.trans h

mutual

theorem Stmt.hoists_declare : ∀ {stmt : Stmt}, stmt.Every code →
    (stmt.declare c).Hoists code c stmt.hoisted
  | .dim _ name _ _, _ | .const _ name _, _ =>
    show Run.Hoists _ code c ([name] ++ []) from
      (Run.hoists_declare _ _ _).bind fun _ => Run.hoists_pure ()
  | .procedure _ decl, h => Procedure.hoists_declare (h.inside decl.body List.mem_cons_self)
  | .block _ body, h | .loop _ _ body _ _, h | .count _ _ _ _ _ body, h | .forEach _ _ _ body, h
  | .withObject _ _ body, h | .property _ _ (.mk _ _ _ body _) _, h =>
    Stmt.hoists_declareBody (h.inside body List.mem_cons_self)
  | .includeFile _ _ (some _), h => Stmt.hoists_declareBody (h.attached rfl)
  | .branch _ _ thenBody elseBody, h =>
    (Stmt.hoists_declareBody (h.inside thenBody List.mem_cons_self)).bind fun _ =>
      Stmt.hoists_declareBody (h.inside elseBody (List.mem_cons_of_mem _ List.mem_cons_self))
  | .select _ _ _, h => Stmt.hoists_declareCases fun case hcase =>
    h.inside case.body (List.mem_map_of_mem hcase)
  | .assign .., _ | .call .., _ | .redim .., _ | .classDecl .., _ | .exit .., _ | .onError .., _
  | .optionExplicit .., _ | .includeFile _ _ none, _ => Run.hoists_pure ()

/-- **Declarations bind the names that they declare and no others**, in the frame that they are made
in, whether they succeed or fail. -/
theorem Stmt.hoists_declareBody : ∀ {body : List Stmt}, EveryIn code body →
    (Stmt.declareBody c body).Hoists code c (Stmt.hoistedIn body)
  | [], _ => Run.hoists_pure ()
  | stmt :: _, h =>
    have ⟨first, further⟩ := everyIn_cons.mp h
    ((Stmt.hoists_declare first).within stmt.span).bind fun _ => Stmt.hoists_declareBody further

theorem Stmt.hoists_declareCases : ∀ {cases : List Case}, (∀ case ∈ cases, EveryIn code case.body) →
    (Stmt.declareCases c cases).Hoists code c (Stmt.hoistedInCases cases)
  | [], _ => Run.hoists_pure ()
  | .mk _ _ :: _, h =>
    have ⟨first, further⟩ := List.forall_mem_cons.mp h
    (Stmt.hoists_declareBody first).bind fun _ => Stmt.hoists_declareCases further

end

end PageScript
