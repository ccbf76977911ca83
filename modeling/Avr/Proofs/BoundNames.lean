import Mathlib.Data.Finset.Card
import Mathlib.Logic.Relation
import Avr.Proofs.Emissions

namespace Avr

namespace Names

mutual

/-- The names that are looked up for the value of an expression. Names of bits, of parts and of
variables that are only measured are none of them. -/
def asks (g : Globals) (e : Expr) : List String :=
  match e with
  | .ident name => if name = "RAMEND" then [] else [name]
  | .group items => asksAll g items
  | .binary _ ⟨_, a⟩ ⟨_, b⟩ | .assign _ ⟨_, a⟩ ⟨_, b⟩ => asks g a ++ asks g b
  | .unary _ ⟨_, i⟩ | .suffix _ ⟨_, i⟩ | .signed ⟨_, i⟩ => asks g i
  | .arrow ⟨_, b⟩ ⟨_, m⟩ =>
    if (b.ident?.bind g.pin?).isSome then []
    else asks g b ++ (if m.word?.isSome then [] else asks g m)
  | .index ⟨_, b⟩ ⟨_, i⟩ =>
    (if b.ident? = some "mem" ∨ b.ident? = some "prg" then [] else asks g b) ++ asks g i
  | .call ⟨name, args⟩ =>
    if name.value = "high" ∨ name.value = "low" then asksArguments g false args
    else if name.value = "bitmask" then asksArguments g true args
    else []
  | .number _ | .char _ | .str _ | .register _ => []
termination_by structural e

def asksAll (g : Globals) (items : List (Located Expr)) : List String :=
  match items with
  | [] => []
  | ⟨_, e⟩ :: rest => asks g e ++ asksAll g rest
termination_by structural items

/-- In a mask of bits, a word is the name of a bit. -/
def asksArguments (g : Globals) (bits : Bool) (args : List (Argument Expr)) : List String :=
  match args with
  | [] => []
  | ⟨_, ⟨_, e⟩⟩ :: rest =>
    (if bits && e.word?.isSome then [] else asks g e) ++ asksArguments g bits rest
termination_by structural args

end

variable {n : Names} {follow other : String → Located Expr → Trace Value}

/-- The two find the same for all names of the list that are bound. -/
def Alike (n : Names) (follow other : String → Located Expr → Trace Value)
    (names : List String) : Prop :=
  ∀ name ∈ names, ∀ target, n.bindings.lookup name = some target →
    follow name target = other name target

theorem alike_append {xs ys : List String} :
    n.Alike follow other (xs ++ ys) ↔ n.Alike follow other xs ∧ n.Alike follow other ys := by
  simp only [Alike, List.mem_append]
  constructor
  · intro h
    exact ⟨fun name hx => h name (.inl hx), fun name hy => h name (.inr hy)⟩
  · intro h name hname
    exact hname.elim (h.1 name) (h.2 name)

theorem value_congr {l : Location} {name : String}
    (h : n.Alike follow other (asks n.globals (.ident name))) :
    n.value follow l name = n.value other l name := by
  unfold value
  split
  · rfl
  · next hname =>
    cases hlookup : n.bindings.lookup name with
    | none => rfl
    | some target => exact h name (by simp [asks, hname]) target hlookup

mutual

theorem eval_congr (l : Location) (e : Expr) (h : n.Alike follow other (asks n.globals e)) :
    n.eval follow l e = n.eval other l e := by
  match e with
  | .number k => rfl
  | .char c => rfl
  | .str s => rfl
  | .ident name => exact value_congr h
  | .register name => rfl
  | .group items => simp only [eval, evalRegisters_congr items h]
  | .binary op ⟨al, a⟩ ⟨bl, b⟩ =>
    obtain ⟨ha, hb⟩ := alike_append.mp h
    simp only [eval, eval_congr al a ha, eval_congr bl b hb]
  | .unary op ⟨il, i⟩ => simp only [eval, eval_congr il i h]
  | .suffix op ⟨il, i⟩ => simp only [eval, eval_congr il i h]
  | .assign op ⟨tl, t⟩ ⟨vl, v⟩ =>
    obtain ⟨ht, hv⟩ := alike_append.mp h
    simp only [eval, eval_congr tl t ht, eval_congr vl v hv]
  | .arrow ⟨bl, b⟩ ⟨ml, m⟩ =>
    cases hpin : b.ident?.bind n.globals.pin? with
    | some pin => simp only [eval, hpin]
    | none =>
      simp only [asks, hpin, Option.isSome_none, Bool.false_eq_true, if_false] at h
      obtain ⟨hb, hm⟩ := alike_append.mp h
      cases hword : m.word? with
      | some name => simp only [eval, hpin, hword, eval_congr bl b hb]
      | none =>
        simp only [hword, Option.isSome_none, Bool.false_eq_true, if_false] at hm
        simp only [eval, hpin, hword, eval_congr bl b hb, eval_congr ml m hm]
  | .index ⟨bl, b⟩ ⟨il, i⟩ =>
    obtain ⟨hb, hi⟩ := alike_append.mp h
    have hindex := eval_congr il i hi
    have haddress := evalAddress_congr il i hi fun _ => hindex
    unfold eval
    split
    · rw [haddress]
    · rw [haddress]
    · next hmem hprg =>
      rw [if_neg (not_or.mpr ⟨hmem, hprg⟩)] at hb
      simp only [eval_congr bl b hb, hindex]
  | .call ⟨name, args⟩ =>
    unfold eval
    split
    · next hname =>
      simp only [asks, hname, true_or, if_true] at h
      match args with
      | [⟨_, ⟨al, a⟩⟩] => simp only [eval_congr al a (alike_append.mp h).1]
      | [] | _ :: _ :: _ => rfl
    · next hname =>
      simp only [asks, hname, or_true, if_true] at h
      match args with
      | [⟨_, ⟨al, a⟩⟩] => simp only [eval_congr al a (alike_append.mp h).1]
      | [] | _ :: _ :: _ => rfl
    · rfl
    · next hname =>
      have hbits : n.Alike follow other (asksArguments n.globals true args) := by
        simpa [asks, hname] using h
      simp only [evalBits_congr args none 0 hbits]
    · rfl
  | .signed ⟨il, i⟩ => simp only [eval, eval_congr il i h]
termination_by structural e

theorem evalAddress_congr (l : Location) (e : Expr) (h : n.Alike follow other (asks n.globals e))
    {whole whole' : Unit → Trace Value} (hw : ∀ u, whole u = whole' u) :
    n.evalAddress follow l e whole = n.evalAddress other l e whole' := by
  match e with
  | .suffix op ⟨il, i⟩ =>
    have hi := eval_congr il i h
    cases op <;> simp only [evalAddress, hi, hw]
  | .unary op ⟨il, i⟩ =>
    have hi := eval_congr il i h
    cases op with
    | step op => cases op <;> simp only [evalAddress, hi, hw]
    | _ => simp only [evalAddress, hw]
  | .binary op ⟨al, a⟩ ⟨bl, b⟩ =>
    obtain ⟨ha, hb⟩ := alike_append.mp h
    have ha := eval_congr al a ha
    have hb := eval_congr bl b hb
    cases op with
    | arith op => cases op <;> simp only [evalAddress, ha, hb, hw]
    | _ => simp only [evalAddress, hw]
  | .number _ | .char _ | .str _ | .ident _ | .register _ | .group _ | .assign .. | .arrow ..
  | .index .. | .call _ | .signed _ => simp only [evalAddress, hw]
termination_by structural e

theorem evalRegisters_congr (items : List (Located Expr))
    (h : n.Alike follow other (asksAll n.globals items)) :
    n.evalRegisters follow items = n.evalRegisters other items := by
  match items with
  | [] => rfl
  | ⟨l, e⟩ :: rest =>
    obtain ⟨he, hrest⟩ := alike_append.mp h
    simp only [evalRegisters, eval_congr l e he, evalRegisters_congr rest hrest]
termination_by structural items

theorem evalBits_congr (args : List (Argument Expr)) (last : Option IoRegister) (mask : Int32)
    (h : n.Alike follow other (asksArguments n.globals true args)) :
    n.evalBits follow args last mask = n.evalBits other args last mask := by
  match args with
  | [] => rfl
  | ⟨_, ⟨l, e⟩⟩ :: rest =>
    obtain ⟨he, hrest⟩ := alike_append.mp h
    have hbits (last : Option IoRegister) (mask : Int32) := evalBits_congr rest last mask hrest
    cases hword : e.word? with
    | some name => simp only [evalBits, hword, hbits]
    | none =>
      simp only [hword, Option.isSome_none, Bool.and_false, Bool.false_eq_true, if_false] at he
      simp only [evalBits, hword, eval_congr l e he, hbits]
termination_by structural args

end

/-- Follows names up to a limit, at which something else is done. -/
def followOr (n : Names) (cut : String → Located Expr → Trace Value) :
    Nat → String → Located Expr → Trace Value
  | 0 => cut
  | k + 1 => fun _ target => n.eval (n.followOr cut k) target.location target.value

theorem followUpTo_eq (n : Names) (k : Nat) :
    n.followUpTo k =
      n.followOr (fun name target => .fail target.location (.cyclicName name)) k := by
  induction k with
  | zero => rfl
  | succ k ih =>
    funext name target
    rw [followUpTo, followOr, ih]

/-- Looking names up comes to an end by itself, whatever is done at the limit and however far it
is put off. -/
def Ends (n : Names) : Prop :=
  ∀ (cut : String → Located Expr → Trace Value) (k : Nat) (e : Located Expr),
    n.bindings.length ≤ k → n.eval (n.followOr cut k) e.location e.value = n.resolve e

/-- The name is bound to an expression in which the other is looked up. -/
def Leads (n : Names) (name other : String) : Prop :=
  ∃ target, n.bindings.lookup name = some target ∧ other ∈ asks n.globals target.value

/-- No name leads back to itself. -/
def Acyclic (n : Names) : Prop := ∀ name, ¬ Relation.TransGen n.Leads name name

/-- Names that are bound, none of them twice, each of which leads to whatever the expression asks
for. -/
structure Chain (n : Names) (chain : List String) (e : Expr) : Prop where
  nodup : chain.Nodup
  bound : ∀ name ∈ chain, (n.bindings.lookup name).isSome
  leads : ∀ name ∈ chain, ∀ next ∈ asks n.globals e, Relation.TransGen n.Leads name next

variable {chain : List String} {e : Expr}

/-- There are no more names in a chain than names that are bound. -/
theorem Chain.length_le (h : n.Chain chain e) : chain.length ≤ n.bindings.length := by
  have hsub : chain ⊆ n.bindings.map Prod.fst := by
    intro name hname
    obtain ⟨b, hb, hkey⟩ := List.lookup_isSome_iff.mp (h.bound name hname)
    exact List.mem_map.mpr ⟨b, hb, (eq_of_beq hkey).symm⟩
  have hle := (List.subperm_of_subset h.nodup hsub).length_le
  rwa [List.length_map] at hle

/-- A name that is looked up makes the chain longer, if none leads back to itself. -/
theorem Chain.extend (h : n.Chain chain e) (hn : n.Acyclic) {name : String} {target : Located Expr}
    (hname : name ∈ asks n.globals e) (hlookup : n.bindings.lookup name = some target) :
    n.Chain (name :: chain) target.value where
  nodup := List.nodup_cons.mpr ⟨fun hmem => hn name (h.leads name hmem name hname), h.nodup⟩
  bound := List.forall_mem_cons.mpr ⟨by simp [hlookup], h.bound⟩
  leads := by
    intro start hstart next hnext
    have hstep : n.Leads name next := ⟨target, hlookup, hnext⟩
    rcases List.mem_cons.mp hstart with rfl | hstart
    · exact .single hstep
    · exact (h.leads start hstart name hname).tail hstep

/-- Limits that leave room for the names that are not in the chain yet are as good as any other. -/
theorem Chain.eval_eq (hn : n.Acyclic) (cut cut' : String → Located Expr → Trace Value)
    {k k' : Nat} (h : n.Chain chain e) (hk : n.bindings.length ≤ chain.length + k)
    (hk' : n.bindings.length ≤ chain.length + k') (l : Location) :
    n.eval (n.followOr cut k) l e = n.eval (n.followOr cut' k') l e := by
  induction k generalizing k' chain e l with
  | zero =>
    refine eval_congr l e fun name hname target hlookup => ?_
    have hlength := (h.extend hn hname hlookup).length_le
    rw [List.length_cons] at hlength
    omega
  | succ k ih =>
    refine eval_congr l e fun name hname target hlookup => ?_
    have hlonger := h.extend hn hname hlookup
    have hlength := hlonger.length_le
    rw [List.length_cons] at hlength
    obtain ⟨j, rfl⟩ : ∃ j, k' = j + 1 := ⟨k' - 1, by omega⟩
    refine ih hlonger ?_ ?_ target.location
    · rw [List.length_cons]
      omega
    · rw [List.length_cons]
      omega

theorem Acyclic.ends (hn : n.Acyclic) : n.Ends := by
  intro cut k e hk
  have hempty : n.Chain [] e.value := ⟨by simp, by simp, by simp⟩
  rw [resolve, followUpTo_eq]
  exact hempty.eval_eq hn _ _ (by simpa using hk) (by simp) e.location

end Names

end Avr
