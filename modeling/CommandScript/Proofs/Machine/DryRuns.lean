import CommandScript.CommandLine.Program
import CommandScript.Proofs.Machine.CompleteTables
import CommandScript.Proofs.Machine.Faults
import CommandScript.Proofs.Scripts.Naming
import Mathlib
/-! # Dry runs are complete

A dry run registers a handler for every type from the first host command up to the largest type that
has a name. Every command of a compiled script has been written under a name, so its type is one of
these or that of a built-in command, whatever the host calls it. So the table builds, and no run on
it ever finds a command without a handler: gaps between the host's handles are filled, and a
built-in name that the host has taken away leaves its handler in place.
-/
namespace CommandScript

namespace Registries

theorem index_le_foldl_max (entries : List (String × CommandType)) (top : CommandType) :
    let last := entries.foldl (fun top e => if top.handle < e.2.handle then e.2 else top) top
    top.index ≤ last.index ∧ ∀ e ∈ entries, e.2.index ≤ last.index := by
  induction entries generalizing top with
  | nil => exact ⟨Nat.le_refl _, nofun⟩
  | cons e entries ih =>
    obtain ⟨hfirst, hrest⟩ := ih (if top.handle < e.2.handle then e.2 else top)
    have hlarger : top.index ≤ (if top.handle < e.2.handle then e.2 else top).index ∧
        e.2.index ≤ (if top.handle < e.2.handle then e.2 else top).index := by
      split
      · rename_i hlt
        exact ⟨Nat.le_of_lt (UInt32.lt_iff_toNat_lt.mp hlt), Nat.le_refl _⟩
      · rename_i hlt
        exact ⟨Nat.le_refl _, Nat.le_of_not_lt fun h => hlt (UInt32.lt_iff_toNat_lt.mpr h)⟩
    exact ⟨hlarger.1.trans hfirst, List.forall_mem_cons.mpr ⟨hlarger.2.trans hfirst, hrest⟩⟩

theorem index_le_maxCommand {r : Registries} {name : String} {type : CommandType}
    (h : r.commands.get? name = some type) : type.index ≤ r.maxCommand.index :=
  (index_le_foldl_max r.commands.entries .none).2 _ (NameTable.mem_of_get? h)

end Registries

namespace CommandLine
variable {names : Registries} {script : Script} {place : Nat}

theorem index_toUInt32 (h : place ≤ names.maxCommand.index) :
    CommandType.index ⟨place.toUInt32⟩ = place := by
  have hmax : names.maxCommand.index < UInt32.size := names.maxCommand.handle.toNat_lt_size
  exact UInt32.toNat_ofNat_of_lt' (Nat.lt_of_le_of_lt h hmax)

theorem mem_hostTypes {type : CommandType} :
    type ∈ hostTypes names ↔
      CommandType.firstHost ≤ type.index ∧ type.index ≤ names.maxCommand.index := by
  simp only [hostTypes, List.mem_map, List.mem_range'_1]
  constructor
  · rintro ⟨n, ⟨hlow, hhigh⟩, rfl⟩
    have hle : n ≤ names.maxCommand.index := by omega
    rw [index_toUInt32 hle]
    exact ⟨hlow, hle⟩
  · rintro ⟨hlow, hhigh⟩
    refine ⟨type.index, ⟨hlow, by omega⟩, ?_⟩
    exact type.toUInt32_index

theorem exists_of_mem_dryRuns {e : CommandType × Handler Memory} (h : e ∈ dryRuns names) :
    e.1 ∈ hostTypes names ∧ ∃ name, e.2 = dryRun name := by
  obtain ⟨type, htype, rfl⟩ := List.mem_map.mp h
  exact ⟨htype, _, rfl⟩

/-- Every host type up to the largest named one is registered, named or not. -/
theorem registers_dryRuns {type : CommandType} (hlow : CommandType.firstHost ≤ type.index)
    (hhigh : type.index ≤ names.maxCommand.index) : Assembly.Registers (dryRuns names) type :=
  ⟨_, List.mem_map_of_mem (mem_hostTypes.mpr ⟨hlow, hhigh⟩)⟩

theorem tableSize_dryRuns (names : Registries) :
    Assembly.tableSize (dryRuns names) =
      max CommandType.firstHost (names.maxCommand.index + 1) := by
  refine eq_of_forall_ge_iff fun n => ?_
  rw [Assembly.tableSize_le_iff, max_le_iff]
  refine and_congr_right fun hn => ⟨fun hcalls => ?_, fun hmax call hcall => ?_⟩
  · by_cases hlarge : CommandType.firstHost ≤ names.maxCommand.index
    · obtain ⟨handler, hmem⟩ := registers_dryRuns hlarge (Nat.le_refl _)
      exact hcalls _ hmem
    · omega
  · have hle := (mem_hostTypes.mp (exists_of_mem_dryRuns hcall).1).2
    omega

theorem complete_dryRuns
    (hnamed : ∀ c ∈ script.commands, c.type.index ≤ names.maxCommand.index) :
    Assembly.Complete script (dryRuns names) where
  registers type hlow hlt := by
    rw [tableSize_dryRuns] at hlt
    exact registers_dryRuns hlow (by omega)
  command_lt c hc := by
    have hle := hnamed c hc
    rw [tableSize_dryRuns]
    omega

theorem alwaysEnds_dryRun {size : Nat} (name : String) {args : List Expr}
    (hargs : ∀ e ∈ args, e.Settled size) :
    Action.AlwaysEnds (fun _ => True) (RuntimeError.Expected size) (dryRun name args) := by
  refine (Action.alwaysEnds_evaluate hargs).bind fun values _ => ?_
  exact fun _ _ => trivial

/-- Whatever handler a command has in a dry run, it fails with nothing unexpected. -/
theorem alwaysEnds_of_boundTo {size : Nat} {c : Command} {handler : Handler Memory}
    (h : Assembly.BoundTo (dryRuns names) c.type handler) (hc : c.WellFormed size)
    (hargs : ∀ e ∈ c.args, e.Settled size) :
    Action.AlwaysEnds (fun _ => True) (RuntimeError.Expected size) (handler c.args) := by
  generalize htype : c.type = type at h
  cases h with
  | registered hcut =>
    have hmem : (type, handler) ∈ dryRuns names := by
      rw [hcut]
      exact List.mem_append_right _ List.mem_cons_self
    obtain ⟨-, name, rfl⟩ := exists_of_mem_dryRuns hmem
    exact alwaysEnds_dryRun name hargs
  | @builtin b =>
    refine b.alwaysEnds_handler Environment.onlyRefuses_memory hargs fun n hn => hc.arity n ?_
    rw [htype, CommandType.arity, Builtin.ofType?_type]
    exact hn
  | none => exact absurd htype hc.type_ne_none

variable {text : String} {lookahead : LookaheadConfig}

theorem result_assemble (names : Registries) (script : Script) :
    (assemble names script).result =
      ((Assembly.ofScript script).registerEach (dryRuns names)).build.result := by
  simp only [assemble, Logged.result_bind, Logged.result_reportAll, ok_bind,
    Assembly.registerAll_eq_registerEach]

theorem exists_assemble (h : (compile text names lookahead).result = .ok script) :
    ∃ m, (assemble names script).result = .ok m ∧ m.script = script ∧
      m.handlers.size = max CommandType.firstHost (names.maxCommand.index + 1) ∧
        m.Serves (RuntimeError.Expected script.size) := by
  have hnamed : ∀ c ∈ script.commands, c.type.index ≤ names.maxCommand.index := fun c hc =>
    Registries.index_le_maxCommand ((named_of_compile h).own.exists_name c hc).choose_spec
  have hform : script.WellFormed := (sound_of_compile h).own.toWellFormed
  have hcomplete : Assembly.Complete script (dryRuns names) := complete_dryRuns hnamed
  obtain ⟨m, hbuild⟩ := Assembly.exists_build_of_complete hcomplete
  have hscript : m.script = script := by
    rw [(Assembly.script_of_build hbuild).1, Assembly.registerEach_eq]
    rfl
  have hsize : m.handlers.size = max CommandType.firstHost (names.maxCommand.index + 1) := by
    rw [Assembly.size_handlers_of_build hbuild, Assembly.size_registerEach, tableSize_dryRuns]
  refine ⟨m, (result_assemble names script).trans hbuild, hscript, hsize, fun c hc => ?_⟩
  rw [hscript] at hc
  have hlt := hcomplete.command_lt c hc
  have hbound := Assembly.boundTo_slot script hlt (hcomplete.not_leftOut c.type)
  refine ⟨_, (Assembly.handler?_registerEach hbuild).mpr ⟨hlt, hbound⟩, ?_⟩
  exact alwaysEnds_of_boundTo hbound (hform.command c hc) (Machine.settled_of_compile h c hc)

/-- For every description of a host and every text that compiles with it, the table of a dry run
builds, has a slot for each type up to the largest named one, and no step and no run, from an address
or from a label, ever finds a command without a handler. -/
theorem assemble_complete (config : HostConfig)
    (h : (compile text config.registries lookahead).result = .ok script) :
    ∃ m, (assemble config.registries script).result = .ok m ∧ m.script = script ∧
      m.handlers.size = max 14 (config.registries.maxCommand.index + 1) ∧
        ∀ type, (∀ f, (m.step f).result ≠ .error (.unboundCommand type)) ∧
          ∀ limit env, (∀ pc, (m.start limit pc env).result ≠ .error (.unboundCommand type)) ∧
            ∀ label, (m.startAt limit label env).result ≠ .error (.unboundCommand type) := by
  obtain ⟨m, hm, hscript, hsize, hserves⟩ := exists_assemble h
  have hstart : ∀ type limit pc env,
      (m.start limit pc env).result ≠ .error (.unboundCommand type) := by
    intro type limit pc env herror
    exact (hserves.ends_runLoop limit [] (.start pc env)).of_error herror
  refine ⟨m, hm, hscript, hsize, fun type => ⟨fun f herror => ?_, fun limit env => ⟨fun pc => ?_, ?_⟩⟩⟩
  · exact (hserves.ends_step f).of_error herror
  · exact hstart type limit pc env
  · intro label
    unfold Machine.startAt
    split
    · exact hstart type limit _ env
    · rintro ⟨⟩

/-- A host that takes `goto` for a command of its own, has another name for the built-in one, empties
`nop` and leaves gaps between its handles. -/
theorem assemble_complete_sparse :
    let commands : NameTable CommandType :=
      .ofList [("goto", ⟨20⟩), ("jump", ⟨3⟩), ("nop", ⟨0⟩), ("say", ⟨17⟩)]
    let config : HostConfig := ⟨{ Registries.empty with commands }, ⟨1, 2⟩⟩
    let script : Script :=
      ⟨#[⟨⟨17⟩, [.integer 1]⟩, ⟨⟨3⟩, [.address 3]⟩, ⟨⟨20⟩, []⟩],
        (∅ : NameTable Address).insert "z" 3, ∅, ∅⟩
    (compile "nop say 1\njump z\ngoto\nz:" config.registries config.lookahead).result = .ok script ∧
      ∃ m, (assemble config.registries script).result = .ok m ∧ m.handlers.size = 21 ∧
        ∀ type limit env pc, (m.start limit pc env).result ≠ .error (.unboundCommand type) := by
  intro commands config script
  have hcompile : (compile "nop say 1\njump z\ngoto\nz:" config.registries config.lookahead).result =
    .ok script := by cbv
  have hmax : config.registries.maxCommand.index = 20 := by cbv
  obtain ⟨m, hm, -, hsize, hruns⟩ := assemble_complete config hcompile
  rw [hmax] at hsize
  exact ⟨hcompile, m, hm, hsize, fun type limit env => ((hruns type).2 limit env).1⟩

end CommandLine

end CommandScript
