import ClockNet.Proofs.Result

/-! # What a second run is told

The tags that a module finds at its visit in a second run, compared with those that it found in
the first. Tags keep to the directions of ports (`directed_of_visit`); the configured types are
tagged as they were (`initialTags_endOf`); and where the modules visited before have been
revisited, each type of a cell is tagged as before, but for outputs that have been given a
buffer (`retold_of_revisited`). -/

namespace ClockNet

/-- Clock attributes are where they belong: on black boxes, sinks are inputs, and an inverter is an
output that names an input. -/
structure Design.ClocksMarked (d : Design) : Prop where
  sinks : ∀ t ∈ d.modules, t.isBlackbox = true → ∀ id ∈ t.ports,
    (t.wire id).attributes.flag Attribute.sink = true → (t.wire id).direction = some .input
  inverters : ∀ t ∈ d.modules, t.isBlackbox = true → ∀ id ∈ t.ports,
    ∀ v ∈ (t.wire id).attributes.get? Attribute.inverts,
      (t.wire id).direction = some .output ∧
        ∃ id' ∈ t.ports, (t.wire id').name = v.toText ∧ (t.wire id').direction = some .input

instance (d : Design) : Decidable d.ClocksMarked :=
  decidable_of_iff ((∀ t ∈ d.modules, t.isBlackbox = true → ∀ id ∈ t.ports,
      (t.wire id).attributes.flag Attribute.sink = true → (t.wire id).direction = some .input) ∧
      ∀ t ∈ d.modules, t.isBlackbox = true → ∀ id ∈ t.ports,
        ∀ v ∈ (t.wire id).attributes.get? Attribute.inverts,
          (t.wire id).direction = some .output ∧
            ∃ id' ∈ t.ports, (t.wire id').name = v.toText ∧ (t.wire id').direction = some .input)
    ⟨fun ⟨h₁, h₂⟩ => ⟨h₁, h₂⟩, fun h => ⟨h.1, h.2⟩⟩

namespace Buffering

/-- A configured type leads to black boxes only, and where it is a module of the design, that
module has the ports of the specification and no port that is a sink or an inverter. -/
structure BufferSpec.Primitive (d : Design) (spec : BufferSpec) : Prop where
  sound : spec.Sound d
  boxes : ∀ name, Relation.ReflTransGen d.Instantiates spec.type name →
    ∀ t ∈ d.find? name, t.isBlackbox = true
  unmarked : ∀ t ∈ d.find? spec.type, ∀ id ∈ t.ports,
    (t.wire id).attributes.flag Attribute.sink = false ∧
      (t.wire id).attributes.get? Attribute.inverts = none

/-- What a run needs to leave its own result alone: no net has two drivers, clock attributes are
where they belong, and the configured types are primitive. -/
structure Rerunnable (o : Options) (d : Design) : Prop where
  well : d.WellFormed
  ports : d.PortsNumbered
  single : ∀ m ∈ d.modules, m.isBlackbox = false → SingleDriver (.ofDesign d) m
  marked : d.ClocksMarked
  primitive : ∀ spec ∈ o.placeable, spec.Primitive d
  given : o.buffer.isSome ∨ o.pad.isSome

open Insertion

/-- The second visit of a module, after the one that a run makes of it. -/
def Revisited (o : Options) (d : Design) (m : Module) : Prop :=
  Revisit (sceneOf o d m) (entryIn o d (progressBefore o d m.name) m)
    (progressBefore o d m.name).tags (sceneOf o (endOf o d) (exitOf o d m).module)
    (progressBefore o (endOf o d) m.name).tags

section
variable {o : Options} {d : Design} {m t : Module} {q : PortBit} {c : Cell}

/-! ## Directions of tagged ports -/

theorem isOutput_of_port (hd : d.NamesUnique) (ht : t ∈ d.modules) (hc : c.type = t.name)
    {id : WireId} (hid : id ∈ t.ports) {dir : Direction} (h : (t.wire id).direction = some dir) :
    (Signatures.ofDesign d).isOutput c (t.wire id).name = dir.isOutput := by
  have hdeclares := declares_of_port (hd.modules t ht).wires hid h
  unfold Declares at hdeclares
  unfold Signatures.isOutput
  rw [direction_ofDesign, hc, Design.find?_name hd.names ht]
  dsimp only
  rw [hdeclares]
  rfl

theorem mem_ports_of_role (hp : d.PortsNumbered) (ht : t ∈ d.modules) {id : WireId}
    (h : (t.wire id).isInput = true ∨ (t.wire id).isOutput = true) : id ∈ t.ports := by
  rw [(hp t ht).mem]
  unfold Wire.isPort
  rwa [Bool.or_eq_true]

theorem TagsSink.isOutput (hd : d.NamesUnique) (hp : d.PortsNumbered) (hm : d.ClocksMarked)
    (ht : t ∈ d.modules) (h : TagsSink o d t q) (hc : c.type = t.name) :
    (Signatures.ofDesign d).isOutput c q.port = false := by
  unfold TagsSink at h
  split at h
  · rename_i hb
    obtain ⟨id, hid, hflag, i, -, rfl⟩ := h
    exact isOutput_of_port hd ht hc hid (hm.sinks t ht hb id hid hflag)
  · obtain ⟨id, i, hpub, rfl⟩ := h
    obtain ⟨hcons, -, -, hin⟩ := mem_actions_publishSink.mp hpub
    have hdir := direction_input.mpr ⟨hin, hcons.not_output hin⟩
    exact isOutput_of_port hd ht hc (mem_ports_of_role hp ht (.inl hin)) hdir

theorem TagsBuffered.isOutput (hd : d.NamesUnique) (hp : d.PortsNumbered) (ht : t ∈ d.modules)
    (hb : t.isBlackbox = false) (h : TagsBuffered o d t q) (hc : c.type = t.name) :
    (Signatures.ofDesign d).isOutput c q.port = true := by
  unfold TagsBuffered at h
  rw [if_neg (by simp [hb])] at h
  obtain ⟨id, i, hpub, rfl⟩ := h
  obtain ⟨-, hout, hin⟩ := role_of_buffered hpub
  have hdir := direction_output.mpr ⟨hin, hout⟩
  exact isOutput_of_port hd ht hc (mem_ports_of_role hp ht (.inr hout)) hdir

/-- The inverters that are known at a visit are those of black boxes of the design. -/
theorem inverterInput?_progressBefore (hd : d.NamesUnique) (name : String) {input : String}
    (h : (progressBefore o d name).tags.inverterInput? q = some input) :
    ∃ t ∈ d.modules, t.name = q.type ∧ t.isBlackbox = true ∧ ∃ id ∈ t.ports,
      (t.wire id).name = q.port ∧
      ∃ v, (t.wire id).attributes.get? Attribute.inverts = some v ∧ input = v.toText := by
  have hall := inverterInput?_progressAfter hd (visitedBefore_isPrefix o d name) q
  rw [show progressAfter o d (visitedBefore o d name) = progressBefore o d name from rfl, h] at hall
  split at hall
  · obtain ⟨t, ht, hown⟩ := Option.bind_eq_some_iff.mp hall.symm
    obtain ⟨hfind, hb⟩ := Option.filter_eq_some_iff.mp ht
    obtain ⟨-, id, hid, hname, v, hv, he⟩ := Tags.ownInverter?_eq_some hown
    exact ⟨t, Design.mem_of_find? hfind, Design.name_of_find? hfind, hb, id, hid, hname, v, hv, he⟩
  · cases hall

/-- Tags keep to the directions of ports. -/
theorem directed_of_visit (h : Rerunnable o d) (name : String) (c : Cell) :
    Directed (.ofDesign d) (progressBefore o d name).tags c := by
  have hd := h.well.namesUnique
  refine ⟨?_, ?_⟩
  · intro port j ht
    obtain ⟨t, hmem, -, htag⟩ :=
      (mem_sinks_progressAfter hd (visitedBefore_isPrefix o d name)).mp ht
    exact htag.isOutput hd h.ports h.marked hmem htag.type_eq
  · intro port j input ht
    obtain ⟨t, hmem, hname, hb, id, hid, hport, v, hv, rfl⟩ :=
      inverterInput?_progressBefore hd name ht
    obtain ⟨hdir, id', hid', hname', hdir'⟩ := h.marked.inverters t hmem hb id hid v hv
    have hport' : (t.wire id).name = port := hport
    rw [← hport', ← hname']
    exact ⟨isOutput_of_port hd hmem hname.symm hid hdir,
      isOutput_of_port hd hmem hname.symm hid' hdir'⟩

/-! ## The configured types -/

theorem Rerunnable.box (h : Rerunnable o d) {spec : BufferSpec} (hs : spec ∈ o.placeable) :
    ∀ t ∈ d.find? spec.type, t.isBlackbox = true :=
  (h.primitive spec hs).boxes _ .refl

theorem Rerunnable.setApart (h : Rerunnable o d) : ∃ inside, SetApart o d inside := by
  classical
  refine ⟨fun name => decide (∃ spec ∈ o.placeable,
    Relation.ReflTransGen d.Instantiates spec.type name), ?_, ?_, ?_⟩
  · intro a b ha hab
    obtain ⟨spec, hspec, hlead⟩ := of_decide_eq_true ha
    exact decide_eq_true ⟨spec, hspec, hlead.tail hab⟩
  · intro spec hspec
    exact decide_eq_true ⟨spec, hspec, .refl⟩
  · intro t ht hin
    obtain ⟨spec, hspec, hlead⟩ := of_decide_eq_true hin
    exact (h.primitive spec hspec).boxes _ hlead t (Design.find?_name h.well.namesUnique.names ht)

theorem buffersInputs_endOf (h : Rerunnable o d) :
    buffersInputs o (endOf o d) = buffersInputs o d := by
  unfold buffersInputs
  cases hpad : o.pad with
  | none => rfl
  | some pad =>
    have hmem : pad ∈ o.placeable := by simp [Options.placeable, hpad]
    rw [Option.bind_some, Option.bind_some, find?_endOf h.well.namesUnique]
    cases hf : d.find? pad.type with
    | none => rfl
    | some t => rw [Option.map_some, resultOf_blackbox (h.box hmem t hf)]

theorem initialTags_endOf (h : Rerunnable o d) :
    initialTags o (endOf o d) = initialTags o d := by
  unfold initialTags
  rw [buffersInputs_endOf h]

theorem mem_addBufferType {tags : Tags} {spec : BufferSpec} :
    q ∈ (tags.addBufferType spec).buffered ↔
      q = ⟨spec.type, spec.output, 0⟩ ∨ q ∈ tags.buffered := by
  unfold Tags.addBufferType Tags.addBuffered
  exact List.mem_insert_iff

theorem buffer_tagged {b : BufferSpec} (hb : o.buffer = some b) {type : String}
    (htype : type = b.type ∨ ∃ g, o.generatedClock = some g ∧ type = g.bufferType) :
    ⟨type, b.output, 0⟩ ∈ (initialTags o d).buffered := by
  unfold initialTags
  rw [hb]
  dsimp only
  -- a pad only adds to what the buffer has brought
  split
  on_goal 1 => split
  on_goal 1 => refine mem_addBufferType.mpr (.inr ?_)
  all_goals
    rcases htype with rfl | ⟨g, hg, rfl⟩
    · cases o.generatedClock with
      | none => exact mem_addBufferType.mpr (.inl rfl)
      | some g => exact mem_addBufferType.mpr (.inr (mem_addBufferType.mpr (.inl rfl)))
    · rw [hg]
      exact mem_addBufferType.mpr (.inl rfl)

theorem pad_tagged {pad : BufferSpec} (hpad : o.pad = some pad)
    (hlast : o.buffer = none ∨ buffersInputs o d = false) :
    ⟨pad.type, pad.output, 0⟩ ∈ (initialTags o d).buffered := by
  have hcond : (o.buffer.isNone || !buffersInputs o d) = true := by
    rcases hlast with hb | hb
    · rw [hb]
      rfl
    · rw [hb]
      simp
  unfold initialTags
  rw [hpad]
  dsimp only
  rw [if_pos hcond]
  exact mem_addBufferType.mpr (.inl rfl)

/-- The first cell that a net is given is of a type whose output counts as buffered. -/
theorem head_tagged {id : WireId} {i : Nat} {spec : BufferSpec}
    (hdrive : .drive id i ∈ actions (sceneOf o d m) m)
    (hhead : (parts (sceneOf o d m) m (m.wire id) (.wire id i)).head? = some spec) :
    ⟨spec.type, spec.output, 0⟩ ∈ (initialTags o d).buffered := by
  have hoptions : (sceneOf o d m).options = o := rfl
  unfold parts at hhead
  cases hbuffer : bufferFor? (sceneOf o d m) m (m.wire id) with
  | some b =>
    rw [hbuffer] at hhead
    have hspec : bufferAt (sceneOf o d m) b (.wire id i) = spec := by simpa using hhead
    subst hspec
    refine buffer_tagged (buffer_of_bufferFor? hbuffer) ?_
    unfold bufferAt bufferType
    rw [hoptions]
    cases hg : o.generatedClock with
    | none => exact .inl rfl
    | some g =>
      dsimp only
      split
      · exact .inr ⟨g, rfl, rfl⟩
      · exact .inl rfl
  | none =>
    rw [hbuffer] at hhead
    have hpad : padFor? (sceneOf o d m) m (m.wire id) = some spec := by
      cases hpad : padFor? (sceneOf o d m) m (m.wire id) with
      | none => simp [hpad] at hhead
      | some pad => simpa [hpad] using hhead
    obtain ⟨htop, hgiven⟩ := padFor?_eq_some.mp hpad
    have hin := (isTopInput_iff.mp htop).1
    exact pad_tagged hgiven
      (pad_alone hpad hbuffer ((mem_actions_drive.mp hdrive).1.not_output hin))

/-! ## What a visit publishes again -/

/-- A black box, or a module that is visited by both runs, publishes the same sinks. -/
theorem tagsSink_endOf (hd : d.NamesUnique) (ht : t ∈ d.modules) (hrev : t.isBlackbox = false →
    t.name ∈ moduleOrder d o.selection ∧ Revisited o d t) :
    TagsSink o (endOf o d) (resultOf o d t) q ↔ TagsSink o d t q := by
  have hbox := (resultOf_rest (o := o) hd ht).2
  cases hb : t.isBlackbox with
  | true =>
    rw [resultOf_blackbox hb]
    unfold TagsSink
    rw [if_pos hb, if_pos hb]
  | false =>
    obtain ⟨ho, hr⟩ := hrev hb
    unfold TagsSink
    rw [hbox, hb, resultOf_visited hb ho]
    simp only [Bool.false_eq_true, if_false]
    exact hr.publishSink_revisit

/-- What it has published as buffered it publishes again. -/
theorem tagsBuffered_endOf (hd : d.NamesUnique) (ht : t ∈ d.modules) (hrev : t.isBlackbox = false →
    t.name ∈ moduleOrder d o.selection ∧ Revisited o d t) (h : TagsBuffered o d t q) :
    TagsBuffered o (endOf o d) (resultOf o d t) q := by
  have hbox := (resultOf_rest (o := o) hd ht).2
  cases hb : t.isBlackbox with
  | true =>
    rw [resultOf_blackbox hb]
    unfold TagsBuffered at h ⊢
    rw [if_pos hb] at h ⊢
    exact h
  | false =>
    obtain ⟨ho, hr⟩ := hrev hb
    unfold TagsBuffered at h ⊢
    rw [hb] at h
    rw [hbox, hb, resultOf_visited hb ho]
    simp only [Bool.false_eq_true, if_false] at h ⊢
    obtain ⟨id, i, hpub, he⟩ := hr.publishBuffered_revisit h
    exact ⟨id, i, .inl hpub, he⟩

/-! ## What a second run tells of a type -/

/-- The modules that the second run finds are what the first has made of those it found. -/
theorem exists_find?_endOf (hd : d.NamesUnique) {name : String} {P : Module → Prop} :
    (∃ t ∈ (endOf o d).find? name, P t) ↔ ∃ t ∈ d.find? name, P (resultOf o d t) := by
  rw [find?_endOf hd]
  cases d.find? name <;> simp

theorem filter_find?_endOf (hd : d.NamesUnique) (name : String) :
    ((endOf o d).find? name).filter Module.isBlackbox =
      (d.find? name).filter Module.isBlackbox := by
  rw [find?_endOf hd]
  cases hf : d.find? name with
  | none => rfl
  | some t =>
    have hbox := (resultOf_rest (o := o) hd (Design.mem_of_find? hf)).2
    cases hb : t.isBlackbox with
    | true => rw [Option.map_some, resultOf_blackbox hb]
    | false =>
      rw [Option.map_some, Option.filter_some_neg (by simp [hbox, hb]),
        Option.filter_some_neg (by simp [hb])]

/-- The inverters of a type that both runs or neither have visited are the same. -/
theorem inverterInput?_endOf (hd : d.NamesUnique) (hp : d.PortsNumbered) {name : String}
    (hv : (d.find? q.type).isSome →
      (q.type ∈ visitedBefore o (endOf o d) name ↔ q.type ∈ visitedBefore o d name)) :
    (progressBefore o (endOf o d) name).tags.inverterInput? q =
      (progressBefore o d name).tags.inverterInput? q := by
  have hold := inverterInput?_progressAfter hd (visitedBefore_isPrefix o d name) q
  have hnew := inverterInput?_progressAfter (namesUnique_endOf hd hp)
    (visitedBefore_isPrefix o (endOf o d) name) q
  rw [filter_find?_endOf hd] at hnew
  refine hnew.trans (Eq.trans ?_ hold.symm)
  cases hf : d.find? q.type with
  | none => simp
  | some t => exact if_congr (hv (by rw [hf]; rfl)) rfl rfl

/-- An output that only the second run tags as buffered is one of a module with contents. -/
theorem buffered_of_endOf (hd : d.NamesUnique) (hp : d.PortsNumbered) (hf : d.find? c.type = some t)
    {port : String} {j : Nat}
    (h : TagsBuffered o (endOf o d) (resultOf o d t) ⟨c.type, port, j⟩) :
    TagsBuffered o d t ⟨c.type, port, j⟩ ∨
      (t.isBlackbox = false ∧ (Signatures.ofDesign d).isOutput c port = true) := by
  have ht := Design.mem_of_find? hf
  obtain ⟨hname, hbox⟩ := resultOf_rest (o := o) hd ht
  cases hb : t.isBlackbox with
  | true =>
    rw [resultOf_blackbox hb] at h
    unfold TagsBuffered at h ⊢
    rw [if_pos hb] at h ⊢
    exact .inl h
  | false =>
    refine .inr ⟨rfl, ?_⟩
    have hmem : resultOf o d t ∈ (endOf o d).modules := by
      rw [modules_endOf hd]
      exact List.mem_map_of_mem ht
    rw [← signatures_endOf (o := o) hd hp]
    refine TagsBuffered.isOutput (namesUnique_endOf hd hp) (portsNumbered_endOf hd hp) hmem
      (hbox.trans hb) h ?_
    rw [hname]
    exact (Design.name_of_find? hf).symm

/-- Where the modules before it are revisited, a module is told in the second run what it was
told in the first, but for outputs that have been given a buffer. -/
theorem retold_of_revisited (h : Rerunnable o d) (hm : m ∈ d.modules) (hb : m.isBlackbox = false)
    (ho : m.name ∈ moduleOrder d o.selection) (hc : c ∈ m.cells)
    (hrev : ∀ t ∈ d.modules, t.isBlackbox = false →
      t.name ∈ visitedBefore o (endOf o d) m.name → Revisited o d t) :
    Retold (.ofDesign d) (progressBefore o d m.name).tags
      (progressBefore o (endOf o d) m.name).tags c := by
  have hd := h.well.namesUnique
  have hd' := namesUnique_endOf (o := o) hd h.ports
  obtain ⟨inside, hapart⟩ := h.setApart
  have hsome : ∀ {t}, d.find? c.type = some t → (d.find? c.type).isSome := by
    intro t hf
    rw [hf]
    rfl
  have hvisited : (d.find? c.type).isSome → (c.type ∈ visitedBefore o (endOf o d) m.name ↔
      c.type ∈ visitedBefore o d m.name) := visitedBefore_iff hd h.ports hapart hm hb ho hc
  have hagain : ∀ {t}, d.find? c.type = some t → c.type ∈ visitedBefore o d m.name →
      t.isBlackbox = false → t.name ∈ moduleOrder d o.selection ∧ Revisited o d t := by
    intro t hf hv hbt
    have hname := Design.name_of_find? hf
    refine ⟨hname ▸ (visitedBefore_isPrefix o d m.name).subset hv,
      hrev t (Design.mem_of_find? hf) hbt ?_⟩
    rw [hname]
    exact (hvisited (hsome hf)).mpr hv
  refine ⟨?_, ?_, ?_, ?_⟩
  · intro port j
    rw [mem_sinks_progressBefore hd', mem_sinks_progressBefore hd, exists_find?_endOf hd]
    constructor
    · intro ⟨hv, t, hf, htag⟩
      have hv' := (hvisited (hsome hf)).mp hv
      exact ⟨hv', t, hf, (tagsSink_endOf hd (Design.mem_of_find? hf) (hagain hf hv')).mp htag⟩
    · intro ⟨hv, t, hf, htag⟩
      exact ⟨(hvisited (hsome hf)).mpr hv, t, hf,
        (tagsSink_endOf hd (Design.mem_of_find? hf) (hagain hf hv)).mpr htag⟩
  · intro port j
    exact inverterInput?_endOf hd h.ports hvisited
  · intro port j hbuf
    rw [mem_buffered_progressBefore hd', initialTags_endOf h, exists_find?_endOf hd]
    refine ((mem_buffered_progressBefore hd).mp hbuf).imp_right ?_
    intro ⟨hv, t, hf, htag⟩
    exact ⟨(hvisited (hsome hf)).mpr hv, t, hf,
      tagsBuffered_endOf hd (Design.mem_of_find? hf) (hagain hf hv) htag⟩
  · intro port j hbuf
    rw [mem_buffered_progressBefore hd', initialTags_endOf h, exists_find?_endOf hd] at hbuf
    rcases hbuf with hinit | ⟨hv, t, hf, htag⟩
    · exact .inl ((mem_buffered_progressBefore hd).mpr (.inl hinit))
    · rcases buffered_of_endOf hd h.ports hf htag with hold | ⟨hbt, hout⟩
      · exact .inl ((mem_buffered_progressBefore hd).mpr
          (.inr ⟨(hvisited (hsome hf)).mp hv, t, hf, hold⟩))
      · refine .inr ⟨hout, ?_⟩
        -- only black boxes have inverters
        refine (inverterInput?_progressAfter hd (visitedBefore_isPrefix o d m.name) _).trans ?_
        simp [show d.find? c.type = some t from hf, hbt]

end

end Buffering

end ClockNet
