import Dana.MachO

/-! `exec_load` of kern/exec.c. -/
namespace Dana
open ByteMem

/-- The address spaces and the loader's records, `task->map` of every task, and
`*entry_point`. -/
structure ExecState where
  load : Loader
  taskMap : Word → VmMapPtr
  entryPoint : Word

def ExecState.withVm (s : ExecState) (vm : VmState) : ExecState :=
  { s with load := { s.load with vm := vm } }

/-- The address of a local variable: it is not `NULL`. -/
def localPtr : Word := 8

/-- A map for a task that has none; `false` when there is no memory for it. -/
def execMap (h : Hhdm) (task : Word) (s : ExecState) : Bool × ExecState :=
  if s.taskMap task = vmMapNull then
    match pmapCreate h s.load.vm.pm with
    | (none, pm) => (false, s.withVm { s.load.vm with pm := pm })
    | (some pmap, pm) =>
      let (map, vm) := vmMapCreate h { s.load.vm with pm := pm } pmap userMapMin userMapMax
      let s := { s.withVm vm with taskMap := Function.update s.taskMap task map }
      if map = vmMapNull then (false, s.withVm { vm with pm := pmapDestroy h vm.pm pmap })
      else (true, s)
  else (true, s)

/-- `none` when it does not return. -/
def execLoad (h : Hhdm) (img : Mem) (task imageData imageSize entryPoint : Word) (s : ExecState) :
    Option KernReturn × ExecState :=
  if task = 0 ∨ imageData = 0 ∨ entryPoint = 0 then (some .invalidArgument, s)
  else
    match execMap h task s with
    | (false, s) => (some .noSpace, s)
    | (true, s) =>
      match machoLoad h img (s.taskMap task) imageData imageSize localPtr s.load with
      | (some .success, load) =>
        (some .success, { s with load := load, entryPoint := load.image.entryPoint })
      | (r, load) => (r, { s with load := load })

end Dana
