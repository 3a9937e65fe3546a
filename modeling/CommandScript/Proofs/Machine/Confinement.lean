import CommandScript.Proofs.Grammar.Origins
import CommandScript.Proofs.Machine.Steps
import Mathlib
/-! # Control stays in the script

Labels name places in a script or its end, and a return address lies behind a command. So a script
that jumps and calls by bare labels only never leaves itself: a run that starts in it stays in it
until it comes to the end, and ends nowhere else. This takes a script as it is compiled, with its
macros copied and its labels linked, and holds whatever the host does.
-/
namespace CommandScript

namespace Machine
variable {ε : Type} {m : Machine ε} {f g : Frame ε}

/-- The frames that steps lead to, whether they succeed or fail. -/
inductive Reaches (m : Machine ε) (f : Frame ε) : Frame ε → Prop
  | refl : Reaches m f f
  | step {g : Frame ε} (h : Reaches m f g) : Reaches m f (m.step g).frame

theorem Reaches.of_step (h : m.Reaches (m.step f).frame g) : m.Reaches f g := by
  induction h with
  | refl => exact .step .refl
  | step h ih => exact .step ih

theorem reaches_runLoop (limit : Nat) (log : List Event) (f : Frame ε) :
    m.Reaches f (m.runLoop limit log f).frame := by
  induction limit generalizing log f with
  | zero => exact .refl
  | succ limit ih =>
    cases hresult : (m.step f).result with
    | error e =>
      rw [runLoop_of_error hresult]
      exact .step .refl
    | ok more =>
      cases more with
      | false =>
        rw [runLoop_of_last hresult]
        exact .step .refl
      | true =>
        rw [runLoop_of_more hresult]
        exact (ih _ _).of_step

/-- The frame lies in the script or at its end, and its return addresses behind some command. -/
structure Confined (m : Machine ε) (f : Frame ε) : Prop where
  pc_le : f.pc ≤ m.script.size
  saved : ∀ a ∈ f.stack.toList, 1 ≤ a ∧ a ≤ m.script.size

/-- Every command goes to places in the script only, or to its end. -/
def TargetsInside (m : Machine ε) : Prop :=
  ∀ c ∈ m.script.commands, ∀ (b : Builtin) (a : Address), b.type = c.type →
    b.target? c.args = some a → a ≤ m.script.size

namespace Confined

theorem start {pc : Address} (hpc : pc ≤ m.script.size) (env : ε) : m.Confined (.start pc env) :=
  ⟨hpc, nofun⟩

theorem of_moves (htargets : m.TargetsInside) (hf : m.Confined f) (hpc : f.pc < m.script.size)
    {pc : Address} {saved : List Address} (h : m.Moves f pc saved) :
    pc ≤ m.script.size ∧ ∀ a ∈ saved, 1 ≤ a ∧ a ≤ m.script.size := by
  cases h with
  | next => exact ⟨hpc, hf.saved⟩
  | jump hc htype hb ha => exact ⟨htargets _ (Array.mem_of_getElem? hc) _ _ htype ha, hf.saved⟩
  | call hc htype ha hne =>
    refine ⟨htargets _ (Array.mem_of_getElem? hc) _ _ htype ha, ?_⟩
    exact List.forall_mem_cons.mpr ⟨⟨Nat.succ_pos _, hpc⟩, hf.saved⟩
  | callNothing => exact ⟨Nat.le_refl _, hf.saved⟩
  | ret hstack =>
    have hsaved := hf.saved
    rw [hstack] at hsaved
    obtain ⟨htop, hrest⟩ := List.forall_mem_cons.mp hsaved
    exact ⟨htop.2, hrest⟩
  | leave hstack => exact ⟨Nat.le_refl _, nofun⟩

variable [Environment ε]

theorem step (hf : m.Confined f) (hm : m.ServesBuiltins) (htargets : m.TargetsInside) :
    m.Confined (m.step f).frame := by
  rcases Nat.lt_or_ge f.pc m.script.size with hpc | hend
  · cases hresult : (m.step f).result with
    | ok more =>
      obtain ⟨hpc', hsaved⟩ := hf.of_moves htargets hpc (hm.moves_step hpc hresult)
      exact ⟨hpc', hsaved⟩
    | error e =>
      -- A failing step may have changed the host, but neither the address nor the pending calls.
      obtain ⟨c, hc⟩ : ∃ c, m.script.command? f.pc = some c := ⟨_, Array.getElem?_eq_getElem hpc⟩
      obtain ⟨b, -, hb⟩ := hm c (Array.mem_of_getElem? hc)
      rcases step_error_cases hc hb hresult with hsame | ⟨values, -, hhost⟩
      · rw [hsame]
        exact hf
      · rw [hhost]
        exact ⟨hf.pc_le, hf.saved⟩
  · rw [step_of_size_le hend]
    exact hf

theorem reaches (hf : m.Confined f) (hm : m.ServesBuiltins) (htargets : m.TargetsInside)
    (h : m.Reaches f g) : m.Confined g := by
  induction h with
  | refl => exact hf
  | step h ih => exact ih.step hm htargets

end Confined

end Machine

theorem Builtin.exists_addressPlace?_of_target? {b : Builtin} {args : List Expr} {a : Address}
    (h : b.target? args = some a) : ∃ place, b.addressPlace? = some place := by
  obtain ⟨place, hplace, -⟩ := Option.bind_eq_some_iff.mp h
  exact ⟨place, hplace⟩

/-- The address argument of every command is written as a bare label. -/
def JumpsToLabels (text : String) (names : Registries) (script : Script) : Prop :=
  ∀ d ∈ script.commands, ∀ (b : Builtin) (place : Nat), b.type = d.type →
    b.addressPlace? = some place → WrittenAsLabel text names d place

section Compiled
variable {text : String} {names : Registries} {config : LookaheadConfig} {script : Script}

theorem target_le_of_compile (hcompile : (compile text names config).result = .ok script)
    (hlabels : JumpsToLabels text names script) {c : Command} (hc : c ∈ script.commands)
    {b : Builtin} (htype : b.type = c.type) {a : Address} (ha : b.target? c.args = some a) :
    a ≤ script.size := by
  obtain ⟨place, hplace⟩ := Builtin.exists_addressPlace?_of_target? ha
  obtain ⟨a', ha'⟩ := (writtenAsLabel_iff hcompile hc).mp (hlabels c hc b place htype hplace)
  rw [Builtin.target?_of_address hplace ha'] at ha
  cases ha
  have hform := (sound_of_compile hcompile).own.command c hc
  exact hform.address_le _ (List.mem_of_getElem? ha') a List.mem_cons_self

namespace Machine
variable {ε : Type} [Environment ε] {m : Machine ε}

/-- A compiled script of built-in commands whose address arguments are all written as bare labels
keeps control, on any host. From any address in it or at its end, with no calls pending, every frame
that is reached lies in the script or at its end, every return address behind a command of it, and a
run that ends without an error ends at the end of the script. -/
theorem ServesBuiltins.confined_of_labels (hm : m.ServesBuiltins) (hscript : m.script = script)
    (hcompile : (compile text names config).result = .ok script)
    (hlabels : JumpsToLabels text names script) {pc : Address} (hpc : pc ≤ script.size) (env : ε) :
    (∀ g, m.Reaches (.start pc env) g →
      g.pc ≤ script.size ∧ ∀ a ∈ g.stack.toList, 1 ≤ a ∧ a ≤ script.size) ∧
      ∀ limit, (m.start limit pc env).result = .ok .finished →
        (m.start limit pc env).frame.pc = script.size := by
  subst hscript
  have htargets : m.TargetsInside := fun c hc b a htype ha =>
    target_le_of_compile hcompile hlabels hc htype ha
  have hstart : m.Confined (.start pc env) := .start hpc env
  constructor
  · intro g hg
    obtain ⟨hpc', hsaved⟩ := hstart.reaches hm htargets hg
    exact ⟨hpc', hsaved⟩
  · intro limit hfinished
    have hlast := hstart.reaches hm htargets (m.reaches_runLoop limit [] (.start pc env))
    have hend : m.script.size ≤ (m.start limit pc env).frame.pc :=
      size_le_of_runLoop_eq_finished hfinished
    exact Nat.le_antisymm hlast.pc_le hend

/-- A call over a jump to a command that jumps in a macro, and returns. -/
theorem ServesBuiltins.confined_of_labels_macro :
    let text := "macro m\ngoto b\nb:\nendmacro\ncall s\ngoto z\ns: m ret\nz:"
    let names : Registries :=
      { Registries.empty with
        commands := (((∅ : NameTable _).insert "goto" ⟨3⟩).insert "call" ⟨9⟩).insert "ret" ⟨10⟩ }
    let body : Script := (Script.empty.push ⟨⟨3⟩, [.label "b"]⟩).declareLabel "b"
    let script : Script :=
      ⟨#[⟨⟨9⟩, [.address 2]⟩, ⟨⟨3⟩, [.address 4]⟩, ⟨⟨3⟩, [.address 3]⟩, ⟨⟨10⟩, []⟩],
        ((∅ : NameTable Address).insert "s" 2).insert "z" 4,
        (∅ : NameTable Script).insert "m" body, ∅⟩
    (compile text names ⟨1, 2⟩).result = .ok script ∧ JumpsToLabels text names script ∧
      ∃ m : Machine Memory, (Assembly.ofScript script : Assembly Memory).build.result = .ok m ∧
        (m.start 9 0 .empty).result = .ok .finished ∧ (m.start 9 0 .empty).frame.pc = 4 ∧
        ∀ g, m.Reaches (.start 0 .empty) g →
          g.pc ≤ 4 ∧ ∀ a ∈ g.stack.toList, 1 ≤ a ∧ a ≤ 4 := by
  intro text names body script
  have hcompile : (compile text names ⟨1, 2⟩).result = .ok script := by cbv
  have hlabels : JumpsToLabels text names script := by
    intro d hd b place htype hplace
    refine (writtenAsLabel_iff hcompile hd).mpr ?_
    simp only [script, List.mem_toArray, List.mem_cons, List.not_mem_nil, or_false] at hd
    rcases hd with rfl | rfl | rfl | rfl <;> cases b <;> cases htype <;> cases hplace <;>
      exact ⟨_, rfl⟩
  have hscript : ∀ c ∈ script.commands, ∃ b : Builtin, b.type = c.type := by
    simp only [script, List.mem_toArray, List.mem_cons, List.not_mem_nil, or_false]
    rintro c (rfl | rfl | rfl | rfl)
    · exact ⟨.call, rfl⟩
    · exact ⟨.goto, rfl⟩
    · exact ⟨.goto, rfl⟩
    · exact ⟨.ret, rfl⟩
  obtain ⟨m, hbuild, hfinished⟩ : ∃ m : Machine Memory,
      (Assembly.ofScript script : Assembly Memory).build.result = .ok m ∧
        (m.start 9 0 .empty).result = .ok .finished := ⟨_, by cbv, by cbv⟩
  have hm : m.ServesBuiltins := servesBuiltins_of_build hscript hbuild
  obtain ⟨hreached, hlast⟩ := hm.confined_of_labels (Assembly.script_of_build hbuild).1 hcompile
    hlabels (Nat.zero_le _) .empty
  exact ⟨hcompile, hlabels, m, hbuild, hfinished, hlast 9 hfinished, hreached⟩

end Machine

end Compiled

end CommandScript
