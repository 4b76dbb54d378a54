import Mathlib.Data.List.Forall2
import SpecFence.Proofs.Placement

/-!
# Taking inserted code out again

Instructions can be erased from a layout, and a block that only jumps on can be contracted: what
went to it goes where it leads, with the values that the jump would have passed.  Two functions
agree when they have the same layout and the same instructions, and each destination names the same
block in both and binds its parameters to the same values.  Functions that agree still do so after a
block of both has been contracted.
-/

set_option autoImplicit false

namespace SpecFence

section Calls

/-- What a value stands for when a block is entered: a parameter of the block for the value that is
passed for it, if there is one, and any other value for itself. -/
def bindValue (params args : List ValueId) (v : ValueId) : Option ValueId :=
  if v ∈ params then (params.zip args).lookup v else some v

theorem bindValue_nil (args : List ValueId) (v : ValueId) : bindValue [] args v = some v :=
  if_neg List.not_mem_nil

theorem bindValue_no_args {params : List ValueId} {v : ValueId} (hv : v ∈ params) :
    bindValue params [] v = none := by
  unfold bindValue
  rw [if_pos hv, List.zip_nil_right, List.lookup_nil]

theorem bindValue_cons_self (p a : ValueId) (params args : List ValueId) :
    bindValue (p :: params) (a :: args) p = some a := by
  unfold bindValue
  rw [if_pos List.mem_cons_self, List.zip_cons_cons, List.lookup_cons_self]

theorem bindValue_cons_ne {p v : ValueId} (hv : v ≠ p) (a : ValueId) (params args : List ValueId) :
    bindValue (p :: params) (a :: args) v = bindValue params args v := by
  have hlookup : ((p, a) :: params.zip args).lookup v = (params.zip args).lookup v := by
    rw [List.lookup_cons, beq_eq_false_iff_ne.mpr hv]
  unfold bindValue
  simp only [List.mem_cons, hv, false_or, List.zip_cons_cons, hlookup]

theorem filterMap_bindValue {params : List ValueId} (h : params.Nodup) (args : List ValueId) :
    params.filterMap (bindValue params args) = args.take params.length := by
  induction params generalizing args with
  | nil => rfl
  | cons p params ih =>
    rw [List.nodup_cons] at h
    cases args with
    | nil =>
      rw [List.take_nil, List.filterMap_eq_nil_iff]
      exact fun v hv => bindValue_no_args hv
    | cons a args =>
      have hrest : params.filterMap (bindValue (p :: params) (a :: args)) =
          params.filterMap (bindValue params args) := by
        apply List.filterMap_congr
        intro v hv
        refine bindValue_cons_ne ?_ a params args
        rintro rfl
        exact h.1 hv
      rw [List.filterMap_cons, bindValue_cons_self, hrest, ih h.2, List.length_cons,
        List.take_succ_cons]

def BlockCall.past (b : BlockId) (params : List ValueId) (onward call : BlockCall) : BlockCall :=
  if call.block = b then ⟨onward.block, onward.args.filterMap (bindValue params call.args)⟩
  else call

def InstData.mapCalls (k : BlockCall → BlockCall) (d : InstData) : InstData :=
  match d.extra with
  | .targets calls => { d with extra := .targets (calls.map k) }
  | _ => d

theorem InstData.mapCalls_eq_self {k : BlockCall → BlockCall} {d : InstData}
    (h : ∀ call ∈ Function.callsOf d.extra, k call = call) : d.mapCalls k = d := by
  obtain ⟨opcode, args, extra, controlType, results⟩ := d
  cases extra with
  | targets calls =>
    have hmap : calls.map k = calls := List.map_congr_left h |>.trans (List.map_id calls)
    unfold mapCalls
    dsimp only
    rw [hmap]
  | _ => rfl

end Calls

namespace Function

section Contract

variable {f : Function} {b : BlockId} {onward : BlockCall} {i : InstId}

def erase (f : Function) (ids : List InstId) : Function :=
  { f with layout := f.layout.map fun l => { l with insts := l.insts.filter (· ∉ ids) } }

/-- Where a block leads that has a jump as its only instruction, with the values that it passes. -/
def onward? (f : Function) (b : BlockId) : Option BlockCall :=
  match f.blockInsts b with
  | [i] =>
    match f.opcode i, f.targets i with
    | .jump, [call] => some call
    | _, _ => none
  | _ => none

def leadPast (f : Function) (b : BlockId) (onward : BlockCall) : Function :=
  { f with
    insts := f.insts.map (InstData.mapCalls (BlockCall.past b (f.blockParams b) onward))
    layout := f.layout.filter fun l => l.block != b }

/-- A function in which a block that only jumps on has become part of the edges that led to it. -/
def contract (f : Function) (b : BlockId) : Function :=
  match f.onward? b with
  | some onward => f.leadPast b onward
  | none => f

/-- A function with several blocks contracted, the last one first. -/
def contractAll (f : Function) (bs : List BlockId) : Function :=
  bs.foldr (fun b g => g.contract b) f

theorem size_leadPast (f : Function) (b : BlockId) (onward : BlockCall) :
    (f.leadPast b onward).insts.size = f.insts.size := Array.size_map

theorem opcode_erase (f : Function) (ids : List InstId) (i : InstId) :
    (f.erase ids).opcode i = f.opcode i := rfl

theorem targets_erase (f : Function) (ids : List InstId) (i : InstId) :
    (f.erase ids).targets i = f.targets i := rfl

theorem blockParams_erase (f : Function) (ids : List InstId) (b : BlockId) :
    (f.erase ids).blockParams b = f.blockParams b := rfl

theorem blockInsts_erase (f : Function) (ids : List InstId) (b : BlockId) :
    (f.erase ids).blockInsts b = (f.blockInsts b).filter (· ∉ ids) := by
  unfold erase blockInsts
  simp only [List.find?_map]
  have htest : ((fun l : LaidBlock => l.block == b) ∘
      fun l : LaidBlock => { l with insts := l.insts.filter (· ∉ ids) }) =
      fun l : LaidBlock => l.block == b := rfl
  rw [htest]
  cases f.layout.find? fun l => l.block == b with
  | none => rfl
  | some l => rfl

theorem inst_leadPast (f : Function) (b : BlockId) (onward : BlockCall) (i : InstId) :
    (f.leadPast b onward).inst i =
      (f.inst i).mapCalls (BlockCall.past b (f.blockParams b) onward) := by
  change ((f.insts.map _)[i]?).getD default = _
  rw [Array.getElem?_map]
  unfold inst
  cases f.insts[i]? with
  | none => rfl
  | some d => rfl

theorem mem_blockInsts_leadPast {c : BlockId} (hi : i ∈ (f.leadPast b onward).blockInsts c) :
    i ∈ f.blockInsts c := by
  by_cases hc : c = b
  · have hout : c ∉ (f.leadPast b onward).blocks := by
      intro hmem
      obtain ⟨l, hl, rfl⟩ := mem_blocks.mp hmem
      have hne : (l.block != b) = true := (List.mem_filter.mp hl).2
      exact bne_iff_ne.mp hne hc
    rw [blockInsts_of_not_mem hout] at hi
    exact absurd hi List.not_mem_nil
  · have hfind : (f.leadPast b onward).layout.find? (fun l => l.block == c) =
        f.layout.find? fun l => l.block == c := by
      change (f.layout.filter _).find? _ = _
      rw [List.find?_filter]
      congr 1
      funext l
      by_cases hl : l.block = c
      · simp [hl, hc]
      · simp [hl]
    unfold blockInsts at hi ⊢
    rw [hfind] at hi
    exact hi

theorem size_contract (f : Function) (b : BlockId) :
    (f.contract b).insts.size = f.insts.size ∧ (f.contract b).params = f.params := by
  unfold contract
  cases f.onward? b with
  | none => exact ⟨rfl, rfl⟩
  | some onward => exact ⟨size_leadPast f b onward, rfl⟩

theorem mem_blockInsts_contract {c : BlockId} (hi : i ∈ (f.contract b).blockInsts c) :
    i ∈ f.blockInsts c := by
  unfold contract at hi
  split at hi
  · exact mem_blockInsts_leadPast hi
  · exact hi

theorem size_contractAll (f : Function) (bs : List BlockId) :
    (f.contractAll bs).insts.size = f.insts.size ∧ (f.contractAll bs).params = f.params := by
  induction bs with
  | nil => exact ⟨rfl, rfl⟩
  | cons b bs ih =>
    have hhead := size_contract (f.contractAll bs) b
    exact ⟨hhead.1.trans ih.1, hhead.2.trans ih.2⟩

theorem mem_blockInsts_contractAll {bs : List BlockId} {c : BlockId}
    (hi : i ∈ (f.contractAll bs).blockInsts c) : i ∈ f.blockInsts c := by
  induction bs with
  | nil => exact hi
  | cons b bs ih => exact ih (mem_blockInsts_contract hi)

theorem contractAll_concat (f : Function) (bs : List BlockId) (b : BlockId) :
    f.contractAll (bs ++ [b]) = (f.contract b).contractAll bs := by
  unfold contractAll
  rw [List.foldr_append]
  rfl

end Contract

section Agree

/-- Two destinations name the same block and bind its parameters to the same values.  The second one
may pass fewer values where the first passes more than there are parameters. -/
structure CallAgrees (params : BlockId → List ValueId) (c d : BlockCall) : Prop where
  block : d.block = c.block
  binds : (params c.block).zip d.args = (params c.block).zip c.args
  isPrefix : d.args <+: c.args

/-- What belongs to two instructions is the same, up to values that are passed for no parameter. -/
inductive ExtraAgrees (params : BlockId → List ValueId) : Extra → Extra → Prop where
  | same (extra : Extra) : ExtraAgrees params extra extra
  | targets {calls calls' : List BlockCall} (h : List.Forall₂ (CallAgrees params) calls calls') :
    ExtraAgrees params (.targets calls) (.targets calls')

structure InstAgrees (params : BlockId → List ValueId) (d d' : InstData) : Prop where
  opcode : d'.opcode = d.opcode
  args : d'.args = d.args
  controlType : d'.controlType = d.controlType
  results : d'.results = d.results
  extra : ExtraAgrees params d.extra d'.extra

/-- The second function is the first one, with more blocks, instructions and values that are not
laid out. -/
structure Agrees (f g : Function) : Prop where
  name : g.name = f.name
  slots : g.slots = f.slots
  globals : g.globals = f.globals
  layout : g.layout = f.layout
  insts_le : f.insts.size ≤ g.insts.size
  insts : ∀ i < f.insts.size, InstAgrees f.blockParams (f.inst i) (g.inst i)
  params_le : f.params.size ≤ g.params.size
  params : ∀ b < f.params.size, g.blockParams b = f.blockParams b
  values : ∀ v < f.values.size, g.values[v]? = f.values[v]?

structure AgreesFrom (n : Nat) (f g : Function) : Prop extends Agrees f g where
  recent : ∀ i, n ≤ i → i < f.insts.size → g.inst i = f.inst i

variable {f g k : Function} {n : Nat} {b : BlockId} {params params' : BlockId → List ValueId}

theorem CallAgrees.refl (c : BlockCall) : CallAgrees params c c :=
  ⟨rfl, rfl, List.prefix_rfl⟩

theorem InstAgrees.refl (d : InstData) : InstAgrees params d d :=
  ⟨rfl, rfl, rfl, rfl, .same d.extra⟩

theorem Agrees.refl (f : Function) : Agrees f f :=
  ⟨rfl, rfl, rfl, rfl, Nat.le_refl _, fun _ _ => InstAgrees.refl _, Nat.le_refl _,
    fun _ _ => rfl, fun _ _ => rfl⟩

theorem ExtraAgrees.calls {e e' : Extra} (h : ExtraAgrees params e e') :
    List.Forall₂ (CallAgrees params) (callsOf e) (callsOf e') := by
  cases h with
  | same => exact List.forall₂_same.mpr fun c _ => CallAgrees.refl c
  | targets hcalls => exact hcalls

theorem CallAgrees.trans {c d e : BlockCall} (hcd : CallAgrees params c d)
    (hde : CallAgrees params' d e) (hparams : params' c.block = params c.block) :
    CallAgrees params c e := by
  obtain ⟨hblock, hzip, hpre⟩ := hcd
  obtain ⟨hblock', hzip', hpre'⟩ := hde
  rw [hblock] at hblock' hzip'
  rw [hparams] at hzip'
  exact ⟨hblock', hzip'.trans hzip, hpre'.trans hpre⟩

theorem CallAgrees.eq {c d : BlockCall} (h : CallAgrees params c d)
    (hlength : c.args.length ≤ (params c.block).length) : d = c := by
  obtain ⟨hblock, hzip, hpre⟩ := h
  have hargs := congrArg (List.map Prod.snd) hzip
  rw [List.map_snd_zip hlength, List.map_snd_zip (Nat.le_trans hpre.length_le hlength)] at hargs
  obtain ⟨block, args⟩ := c
  obtain ⟨block', args'⟩ := d
  exact congrArg₂ BlockCall.mk hblock hargs

theorem forall₂_callAgrees_trans {cs ds es : List BlockCall}
    (hcd : List.Forall₂ (CallAgrees params) cs ds) (hde : List.Forall₂ (CallAgrees params') ds es)
    (hparams : ∀ c ∈ cs, params' c.block = params c.block) :
    List.Forall₂ (CallAgrees params) cs es := by
  induction hcd generalizing es with
  | nil =>
    cases hde
    exact List.Forall₂.nil
  | cons hhead _ ih =>
    cases hde with
    | cons hhead' htail' =>
      rw [List.forall_mem_cons] at hparams
      exact List.Forall₂.cons (hhead.trans hhead' hparams.1) (ih htail' hparams.2)

theorem ExtraAgrees.trans {e e' e'' : Extra} (h : ExtraAgrees params e e')
    (h' : ExtraAgrees params' e' e'')
    (hparams : ∀ c ∈ callsOf e, params' c.block = params c.block) :
    ExtraAgrees params e e'' := by
  have hcalls := forall₂_callAgrees_trans h.calls h'.calls hparams
  cases h with
  | same =>
    cases h' with
    | same => exact .same _
    | targets _ => exact .targets hcalls
  | targets _ =>
    cases h' with
    | same => exact .targets hcalls
    | targets _ => exact .targets hcalls

theorem eq_of_forall₂_callAgrees {cs ds : List BlockCall}
    (h : List.Forall₂ (CallAgrees params) cs ds)
    (hlength : ∀ c ∈ cs, c.args.length ≤ (params c.block).length) : ds = cs := by
  induction h with
  | nil => rfl
  | cons hhead _ ih =>
    rw [List.forall_mem_cons] at hlength
    rw [hhead.eq hlength.1, ih hlength.2]

theorem InstAgrees.eq {d d' : InstData} (h : InstAgrees params d d')
    (hlength : ∀ c ∈ callsOf d.extra, c.args.length ≤ (params c.block).length) : d' = d := by
  obtain ⟨opcode, args, extra, controlType, results⟩ := d
  obtain ⟨opcode', args', extra', controlType', results'⟩ := d'
  obtain ⟨rfl, rfl, rfl, rfl, hextra⟩ := h
  cases hextra with
  | same => rfl
  | targets hcalls => rw [eq_of_forall₂_callAgrees hcalls hlength]

theorem Agrees.trans (h : f.WellFormed) (hfg : Agrees f g) (hgk : Agrees g k) : Agrees f k := by
  constructor
  case name => exact hgk.name.trans hfg.name
  case slots => exact hgk.slots.trans hfg.slots
  case globals => exact hgk.globals.trans hfg.globals
  case layout => exact hgk.layout.trans hfg.layout
  case insts_le => exact Nat.le_trans hfg.insts_le hgk.insts_le
  case insts =>
    intro i hi
    have hfirst := hfg.insts i hi
    have hsecond := hgk.insts i (Nat.lt_of_lt_of_le hi hfg.insts_le)
    refine ⟨hsecond.opcode.trans hfirst.opcode, hsecond.args.trans hfirst.args,
      hsecond.controlType.trans hfirst.controlType, hsecond.results.trans hfirst.results, ?_⟩
    refine hfirst.extra.trans hsecond.extra ?_
    intro c hc
    rw [← targets_eq] at hc
    exact hfg.params c.block (h.targets_lt i hi c hc)
  case params_le => exact Nat.le_trans hfg.params_le hgk.params_le
  case params =>
    intro b hb
    rw [hgk.params b (Nat.lt_of_lt_of_le hb hfg.params_le), hfg.params b hb]
  case values =>
    intro v hv
    have hvalue := hfg.values v hv
    have hlt : v < g.values.size := by
      rw [Array.getElem?_eq_getElem hv] at hvalue
      exact (Array.getElem?_eq_some_iff.mp hvalue).1
    rw [hgk.values v hlt, hvalue]

theorem blockInsts_congr (h : g.layout = f.layout) (b : BlockId) :
    g.blockInsts b = f.blockInsts b := by
  unfold blockInsts
  rw [h]

theorem AgreesFrom.onward? (h : AgreesFrom n f g)
    (hb : ∀ i ∈ f.blockInsts b, n ≤ i ∧ i < f.insts.size) : g.onward? b = f.onward? b := by
  have hinst : ∀ i ∈ f.blockInsts b, g.opcode i = f.opcode i ∧ g.targets i = f.targets i := by
    intro i hi
    have heq := h.recent i (hb i hi).1 (hb i hi).2
    unfold opcode targets
    rw [heq]
    exact ⟨rfl, rfl⟩
  unfold Function.onward?
  rw [blockInsts_congr h.layout]
  split
  · rename_i i heq
    have hi := hinst i (by rw [heq]; exact List.mem_singleton_self i)
    rw [hi.1, hi.2]
  · rfl

theorem CallAgrees.past {c d : BlockCall} (h : CallAgrees params c d) (b : BlockId)
    (onward : BlockCall) :
    CallAgrees params (BlockCall.past b (params b) onward c)
      (BlockCall.past b (params b) onward d) := by
  obtain ⟨hblock, hzip, hpre⟩ := h
  unfold BlockCall.past
  by_cases hc : c.block = b
  · -- what the parameters stand for depends on the pairs of parameter and value alone
    have hbind : bindValue (params b) d.args = bindValue (params b) c.args := by
      rw [hc] at hzip
      unfold bindValue
      rw [hzip]
    rw [if_pos hc, if_pos (hblock.trans hc), hbind]
    exact CallAgrees.refl _
  · rw [if_neg hc, if_neg (fun hd => hc (hblock.symm.trans hd))]
    exact ⟨hblock, hzip, hpre⟩

theorem InstAgrees.mapCalls {k : BlockCall → BlockCall} {d d' : InstData}
    (h : InstAgrees params d d')
    (hk : ∀ c c', CallAgrees params c c' → CallAgrees params (k c) (k c')) :
    InstAgrees params (d.mapCalls k) (d'.mapCalls k) := by
  obtain ⟨opcode, args, extra, controlType, results⟩ := d
  obtain ⟨opcode', args', extra', controlType', results'⟩ := d'
  obtain ⟨rfl, rfl, rfl, rfl, hextra⟩ := h
  cases hextra with
  | same => exact InstAgrees.refl _
  | targets hcalls =>
    refine ⟨rfl, rfl, rfl, rfl, .targets ?_⟩
    rw [List.forall₂_map_left_iff, List.forall₂_map_right_iff]
    exact hcalls.imp hk

theorem Agrees.leadPast (h : Agrees f g) (hb : b < f.params.size) (onward : BlockCall) :
    Agrees (f.leadPast b onward) (g.leadPast b onward) := by
  constructor
  case name => exact h.name
  case slots => exact h.slots
  case globals => exact h.globals
  case layout =>
    unfold Function.leadPast
    dsimp only
    rw [h.layout]
  case insts_le =>
    rw [size_leadPast, size_leadPast]
    exact h.insts_le
  case insts =>
    intro i hi
    rw [size_leadPast] at hi
    rw [inst_leadPast, inst_leadPast, h.params b hb]
    exact (h.insts i hi).mapCalls fun c d hcd => hcd.past b onward
  case params_le => exact h.params_le
  case params => exact h.params
  case values => exact h.values

theorem AgreesFrom.contract (h : AgreesFrom n f g) (hb : b < f.params.size)
    (hrecent : ∀ i ∈ f.blockInsts b, n ≤ i ∧ i < f.insts.size) :
    AgreesFrom n (f.contract b) (g.contract b) := by
  unfold Function.contract
  rw [h.onward? hrecent]
  cases f.onward? b with
  | none => exact h
  | some onward =>
    refine ⟨h.toAgrees.leadPast hb onward, ?_⟩
    intro i hni hi
    rw [size_leadPast] at hi
    rw [inst_leadPast, inst_leadPast, h.params b hb, h.recent i hni hi]

theorem AgreesFrom.contractAll (h : AgreesFrom n f g) {bs : List BlockId}
    (hbs : ∀ b ∈ bs, b < f.params.size ∧ ∀ i ∈ f.blockInsts b, n ≤ i ∧ i < f.insts.size) :
    AgreesFrom n (f.contractAll bs) (g.contractAll bs) := by
  induction bs with
  | nil => exact h
  | cons b bs ih =>
    rw [List.forall_mem_cons] at hbs
    obtain ⟨⟨hb, hrecent⟩, hrest⟩ := hbs
    have hsize := size_contractAll f bs
    apply (ih hrest).contract
    · rw [hsize.2]
      exact hb
    · intro i hi
      rw [hsize.1]
      exact hrecent i (mem_blockInsts_contractAll hi)

end Agree

end Function

end SpecFence
