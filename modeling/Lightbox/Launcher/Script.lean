import Lightbox.Launcher.Options
import Lightbox.Shell.Control
import Lightbox.Shell.Read
import Lightbox.Shell.Subst
import Mathlib.Data.Nat.Digits.Defs

/-! # The launcher script

`start-kernel.sh`, block by block: the defaults, one block for each argument, the two checks of
`--kernel`, the derived variables, the terminal that runs QEMU, the debugger, the clean-up. Every
variable of the script is a field of `Vars`; a variable that is unset is empty. What the script
learns from the machine it runs on (paths, directories, the architecture, `RANDOM`) is a parameter
(`Host`), and what it does to it is a list of actions. -/

namespace Lightbox.Launcher.Script

open Lightbox.Shell.Lex (Text)
open Lightbox.Shell.Read (joinWords)
open Lightbox.Shell.Control
open Lightbox.Shell.Subst (replaceFirst)
open Lightbox.Launcher.Options

/-- What the script asks the machine. The commands take the value of a variable that is expanded
without quotes. -/
structure Host where
  /-- `$(realpath ${x})` -/
  realpath : Text → Text
  /-- `[ -d "$x" ]` -/
  isDir : Text → Bool
  /-- `$(cd ${x}; pwd)` -/
  cdPwd : Text → Text
  /-- `$(ls ${x}/out/ | grep android)` -/
  lsGrepAndroid : Text → Text
  /-- `$(uname -m)` -/
  machine : Text
  /-- `type tmux` -/
  hasTmux : Bool
  /-- `$RANDOM` -/
  random : ℕ
  /-- `$(pwd)` -/
  pwd : Text
  /-- `[ $x == "y" ]` where `x` is not a single word that stands for itself -/
  testOther : Text → Text → Bool

/-- The characters by which an expansion without quotes is split or becomes a pattern. -/
def splitChars : List Char := [' ', '\t', '\n', '*', '?', '[', '\\']

/-- `[ $x == "y" ]`: an error if `x` is empty, a comparison if it is a single word. -/
def Host.testEq (H : Host) (x y : Text) : Bool :=
  if x = [] then false
  else if x.all fun c => !splitChars.contains c then x == y
  else H.testOther x y

/-- The variables of the script. -/
structure Vars where
  opts : Settings := {}
  params : Text := []
  kernelType : Text := []
  kernelDir : Text := []
  kernelOut : Text := []
  kernelSource : Text := []
  kernelImage : Text := []
  kernelVmlinux : Text := []
  kernelScripts : Text := []
  relocSections : Text := []
  qemuExec : Text := []
  gdbExec : Text := []
  gdbData : Text := []
  gdbDir : Text := []
  rootfsPath : Text := []
  rootfsFormat : Text := []
  rootfsDevice : Text := []
  rootfsParam : Text := []
  rootfsBootargs : Text := []
  initrdPath : Text := []
  dtbPath : Text := []
  dtbParam : Text := []
  /-- Read in `QEMU_CMD`, but never assigned. -/
  dtbPram : Text := []
  shareParam : Text := []
  debugPort : Text := []
  qemuTittle : Text := []
  /-- The title of the terminal, never assigned. -/
  qemuTitle : Text := []
  qemuCmd : Text := []
  dir : Text := []
  dddScript : Text := []
  deriving DecidableEq, Repr

/-- The commands of `tmux` the script uses. -/
inductive Tmux
  | killSession (name : Text)
  | newSession (name cmd pipe : Text)
  | sendKeys (name keys : Text)
  | splitWindow (cmd : Text)
  | attachSession (name : Text)
  deriving DecidableEq, Repr

/-- The commands of the script, with the values of the variables in them. -/
inductive Action
  | echo (line : Text)
  | gnomeTerminal (title cmd : Text)
  | xfce4Terminal (title command : Text)
  | bash (cmd : Text)
  | tmux (t : Tmux)
  | gdb (source exec data : Text) (ex : List Text)
  | rm (file : Text)
  | touch (file : Text)
  | append (file line : Text)
  | ddd (source exec script : Text)
  | killall (name : Text)
  deriving DecidableEq, Repr

/-- The action is seen outside the shell: it is no message. -/
def Action.external : Action → Bool
  | .echo _ => false
  | _ => true

/-- The actions that are seen outside the shell. -/
def external (as : List Action) : List Action := as.filter (·.external)

abbrev ScriptBlock := Block Vars Action

/-! ### Arguments -/

/-- The options with a default. `ROOTFS`, `DTB` and `QEMU_DIR` have none. -/
def defaultSettings (H : Host) (s : Settings) : Settings :=
  { s with
    kernel := []
    initrd := H.realpath "./prebuilts/rootfs/initrd_aarch64.cpio.gz".toList
    cmdline := []
    debugger := "gdb".toList
    shareFolder := H.realpath "./host-share".toList
    qemuExtraParam := []
    terminal := if H.hasTmux then "tmux".toList else "gnome".toList }

def defaults (H : Host) (args : List Text) : ScriptBlock :=
  assign fun v => { v with opts := defaultSettings H v.opts, params := joinWords args }

/-- The body of the option loop. -/
def optBlock (i : Text) : ScriptBlock := fun v =>
  match branch i with
  | some o => ⟨{ v with opts := v.opts.set o (afterEq i) }, [], .next⟩
  | none => ⟨v, [.echo ("Invalid argument: ".toList ++ afterEq i ++
      ", please check your input.".toList)], .ret⟩

def checkKernel : ScriptBlock := fun v =>
  if v.opts.kernel = [] then
    ⟨v, [.echo "Please pass the kernel path: --kernel=<path>".toList], .ret⟩
  else ⟨v, [], .next⟩

def checkDir (H : Host) : ScriptBlock := fun v =>
  if H.isDir v.opts.kernel = false then
    ⟨v, [.echo "ERROR: Directory not found: --kernel=<path>".toList], .ret⟩
  else ⟨v, [], .next⟩

/-! ### Derived variables -/

def kernelType (H : Host) : ScriptBlock := assign fun v =>
  { v with
    kernelType :=
      if H.isDir (v.opts.kernel ++ "/common".toList) then "android".toList else "linux".toList
    kernelDir := H.cdPwd v.opts.kernel }

def androidPaths (H : Host) (v : Vars) : Vars :=
  let out := v.kernelDir ++ "/out/".toList ++ H.lsGrepAndroid v.kernelDir
  { v with
    kernelOut := out
    kernelSource := v.kernelDir ++ "/common".toList
    kernelImage := out ++ "/dist/Image".toList
    kernelVmlinux := out ++ "/common/vmlinux".toList
    kernelScripts := out ++ "/common/vmlinux-gdb.py".toList
    relocSections :=
      "-s .head.text 0x40200000 -s .text 0x40210000 -s .init.text 0x42870000".toList }

def linuxPaths (v : Vars) : Vars :=
  { v with
    kernelOut := v.kernelDir
    kernelSource := v.kernelDir
    kernelImage := v.kernelDir ++ "/arch/arm64/boot/Image".toList
    kernelVmlinux := v.kernelDir ++ "/vmlinux".toList
    kernelScripts := v.kernelDir ++ "/vmlinux-gdb.py".toList
    relocSections :=
      "-s .head.text 0x40200000 -s .text 0x40210000 -s .init.text 0x418b0000".toList }

def kernelPaths (H : Host) : ScriptBlock := assign fun v =>
  if H.testEq v.kernelType "android".toList then androidPaths H v
  else if H.testEq v.kernelType "linux".toList then linuxPaths v
  else v

def qemuDir (H : Host) : ScriptBlock := assign fun v =>
  if v.opts.qemuDir = [] then
    if H.machine = "aarch64".toList then
      { v with opts := { v.opts with qemuDir := "/usr/bin".toList } }
    else { v with opts := { v.opts with qemuDir := H.realpath "./prebuilts/qemu/bin".toList } }
  else v

def qemuExec : ScriptBlock := fun v =>
  let exec := v.opts.qemuDir ++ "/qemu-system-aarch64".toList
  ⟨{ v with qemuExec := exec }, [.echo ("Using QEMU: ".toList ++ exec)], .next⟩

def gdbExec (H : Host) : ScriptBlock := fun v =>
  if H.machine = "aarch64".toList then
    ⟨{ v with gdbExec := "gdb".toList, gdbData := "/usr/share/gdb".toList },
      [.echo "Using system default gdb.".toList], .next⟩
  else
    let dir := H.cdPwd "./prebuilts/gdb".toList
    ⟨{ v with
        gdbDir := dir
        gdbExec := dir ++ "/usr/local/bin/aarch64-linux-gnu-gdb".toList
        gdbData := dir ++ "/usr/local/share/gdb".toList },
      [.echo "Using prebuilt gdb.".toList], .next⟩

/-- `[[ "$ROOTFS" == *.qcow2 ]]` -/
def isQcow2 (rootfs : Text) : Bool := ".qcow2".toList.isSuffixOf rootfs

def rootfs (H : Host) : ScriptBlock := fun v =>
  if v.opts.rootfs ≠ [] then
    let path := H.realpath v.opts.rootfs
    let format := if isQcow2 v.opts.rootfs then "qcow2".toList else "raw".toList
    let device := if isQcow2 v.opts.rootfs then "/dev/vda1".toList else "/dev/vda".toList
    ⟨{ v with
        rootfsPath := path
        rootfsFormat := format
        rootfsDevice := device
        rootfsParam := "-drive if=none,file=".toList ++ path ++ ",format=".toList ++ format ++
          ",id=hd0 -device virtio-blk-device,drive=hd0".toList
        rootfsBootargs := "root=".toList ++ device ++ " rw".toList },
      [.echo ("Using rootfs image: ".toList ++ path)], .next⟩
  else
    let path := H.realpath v.opts.initrd
    ⟨{ v with
        initrdPath := path
        rootfsParam := "-initrd ".toList ++ path
        rootfsBootargs := [] },
      [.echo ("Using initrd image: ".toList ++ path)], .next⟩

def dtb (H : Host) : ScriptBlock := fun v =>
  if v.opts.dtb ≠ [] then
    let path := H.realpath v.opts.dtb
    ⟨{ v with dtbPath := path, dtbParam := "-dtb ".toList ++ path },
      [.echo ("Using dtb: ".toList ++ path)], .next⟩
  else ⟨{ v with dtbParam := [] }, [.echo "Using qemu default dtb.".toList], .next⟩

def shareParam (H : Host) : ScriptBlock := assign fun v =>
  { v with shareParam :=
      "-fsdev local,security_model=mapped,id=fsdev0,path=".toList ++ H.realpath v.opts.shareFolder ++
      " -device virtio-9p-pci,id=fs0,fsdev=fsdev0,mount_tag=hostshare".toList }

/-- `[[ $TERMINAL == cli* ]]` -/
def isCli (terminal : Text) : Bool := "cli".toList.isPrefixOf terminal

/-- The port a run draws unless it is one of the panes of tmux. -/
def randomPort (H : Host) : ℕ := 10000 + H.random % 10000

def debugPort (H : Host) : ScriptBlock := assign fun v =>
  let port := if isCli v.opts.terminal then 12880 else randomPort H
  { v with
    debugPort := Nat.toDigits 10 port
    qemuTittle := "QEMU@localhost:".toList ++ Nat.toDigits 10 port }

/-- The part of `QEMU_CMD` before the kernel command line. -/
def qemuHead (v : Vars) : Text :=
  v.qemuExec ++
  "                  -machine virt,gic_version=3            -cpu cortex-a72         ".toList ++
  "               -m 1024                                -smp 8                    ".toList ++
  "             -kernel ".toList ++ v.kernelImage ++
  "                ".toList ++ v.dtbPram ++
  "                            ".toList ++ v.rootfsParam ++
  "                        ".toList ++ v.shareParam ++
  "                         -netdev user,id=net0                   -device ".toList ++
  "virtio-net-device,netdev=net0  ".toList ++ v.opts.qemuExtraParam ++
  "                    -serial mon:stdio                      -display none       ".toList ++
  "                   -gdb tcp::".toList ++ v.debugPort ++
  "                -S -append".toList

/-- The kernel command line QEMU is to be given. -/
def appendArg (v : Vars) : Text :=
  v.rootfsBootargs ++ ' ' :: v.opts.cmdline ++ " earlycon=pl011,0x9000000 nokaslr".toList

def qemuCmd : ScriptBlock := assign fun v =>
  { v with qemuCmd := qemuHead v ++ " '".toList ++ appendArg v ++ "'".toList }

/-! ### Terminals and debuggers -/

/-- The blocks that derive the variables of a run. -/
def derive (H : Host) : List ScriptBlock :=
  [kernelType H, kernelPaths H, qemuDir H, qemuExec, gdbExec H, rootfs H, dtb H, shareParam H,
    debugPort H, qemuCmd]

/-- The string that is given to `xfce4-terminal --command`. -/
def xfce4Command (cmd : Text) : Text := "bash -c \"".toList ++ cmd ++ "\"".toList

/-- `${PARAMS/tmux/cli}`: the first occurrence of `tmux` is replaced. -/
def replaceTmux (cli params : Text) : Text := replaceFirst "tmux".toList cli params

/-- The line that changes the directory of a pane. -/
def cdLine (dir : Text) : Text := "cd ".toList ++ dir

/-- The line that starts the launcher in a pane. -/
def relayLine (cli params : Text) : Text :=
  "source ./start-kernel.sh ".toList ++ replaceTmux cli params ++ " --terminal=".toList ++ cli

def lightbox : Text := "lightbox".toList

/-- The commands of the tmux branch. -/
def tmuxActions (dir params : Text) : List Action :=
  [.tmux (.killSession lightbox),
    .tmux (.newSession lightbox "bash".toList "cat > ./qemu.log".toList),
    .tmux (.sendKeys lightbox (cdLine dir)),
    .tmux (.sendKeys lightbox (relayLine "cli-qemu".toList params)),
    .tmux (.splitWindow "bash".toList),
    .tmux (.sendKeys lightbox (cdLine dir)),
    .tmux (.sendKeys lightbox (relayLine "cli-gdb".toList params)),
    .tmux (.attachSession lightbox),
    .tmux (.killSession lightbox)]

def terminal (H : Host) : ScriptBlock := fun v =>
  if H.testEq v.opts.terminal "gnome".toList then
    ⟨v, [.gnomeTerminal v.qemuTitle v.qemuCmd], .next⟩
  else if H.testEq v.opts.terminal "xfce4".toList then
    ⟨v, [.xfce4Terminal v.qemuTitle (xfce4Command v.qemuCmd)], .next⟩
  else if H.testEq v.opts.terminal "cli-qemu".toList then
    ⟨v, [.echo "QEMU start, waiting for GDB connection...".toList, .bash v.qemuCmd], .exit⟩
  else if H.testEq v.opts.terminal "cli-gdb".toList then
    ⟨v, [.echo "Try to connect QEMU...".toList], .next⟩
  else if H.testEq v.opts.terminal "tmux".toList then
    ⟨{ v with dir := H.pwd }, tmuxActions H.pwd v.params, .ret⟩
  else
    ⟨v, [.echo ("Invalid param: --terminal=\"".toList ++ v.opts.terminal ++
      "\", please use \"tmux\", \"gnome\", \"xfce4\", \"cli-qemu\", \"cli-gdb\"".toList)], .ret⟩

/-- The line by which a debugger connects to QEMU. -/
def targetLine (port : Text) : Text := "target remote localhost:".toList ++ port

def safePathLine (v : Vars) : Text := "add-auto-load-safe-path ".toList ++ v.kernelScripts
def fileLine (v : Vars) : Text := "file ".toList ++ v.kernelVmlinux
def symbolLine (v : Vars) : Text :=
  "add-symbol-file ".toList ++ v.kernelVmlinux ++ ' ' :: v.relocSections

/-- The commands given to gdb with `-ex`. -/
def gdbCommands (v : Vars) : List Text :=
  [safePathLine v, "set confirm off".toList, fileLine v, symbolLine v, targetLine v.debugPort,
    "b * 0x40200000 thread 1".toList, "tui enable".toList, "continue".toList]

/-- The lines of the script for ddd. -/
def dddLines (v : Vars) : List Text :=
  [safePathLine v, "set confirm off".toList, fileLine v, symbolLine v, targetLine v.debugPort,
    "b * 0x40200000 thread 1".toList, "continue".toList]

def dddActions (script : Text) (v : Vars) : List Action :=
  [.rm script, .touch script] ++ (dddLines v).map (.append script) ++
    [.ddd v.kernelSource v.gdbExec script, .rm script]

def debugger (H : Host) : ScriptBlock := fun v =>
  if H.testEq v.opts.debugger "gdb".toList then
    ⟨v, [.gdb v.kernelSource v.gdbExec v.gdbData (gdbCommands v)], .next⟩
  else if H.testEq v.opts.debugger "ddd".toList then
    let script := H.realpath "./ddd.script".toList
    ⟨{ v with dddScript := script }, dddActions script v, .next⟩
  else ⟨v, [], .next⟩

def cleanup : ScriptBlock := fun v =>
  ⟨v, [.killall "qemu-system-aarch64".toList, .tmux (.killSession lightbox)], .next⟩

/-! ### The script -/

/-- What follows the option loop. -/
def body (H : Host) : List ScriptBlock :=
  checkKernel :: checkDir H :: (derive H ++ [terminal H, debugger H])

/-- **`start-kernel.sh`**, given its arguments. -/
def script (H : Host) (args : List Text) : List ScriptBlock :=
  defaults H args :: (args.map optBlock ++ (body H ++ [cleanup]))

/-- A run of the script, sourced or executed, in a shell with the given variables. -/
def launch (m : Mode) (H : Host) (args : List Text) (v : Vars) : Out Vars Action :=
  runBlocks m (script H args) v

end Lightbox.Launcher.Script
