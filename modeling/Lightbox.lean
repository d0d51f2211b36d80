import Lightbox.Shell.Lex
import Lightbox.Shell.Size
import Lightbox.Shell.Read
import Lightbox.Shell.Quoted
import Lightbox.Shell.Subst
import Lightbox.Shell.Control
import Lightbox.Run.System
import Lightbox.Extension.Config
import Lightbox.Extension.Quote
import Lightbox.Extension.AutoClose
import Lightbox.Extension.Sessions
import Lightbox.Extension.Sync
import Lightbox.Extension.Progress
import Lightbox.Extension.Floating
import Lightbox.Launcher.Options
import Lightbox.Launcher.Parsing
import Lightbox.Launcher.Script
import Lightbox.Launcher.Phases
import Lightbox.Launcher.Modes
import Lightbox.Launcher.History
import Lightbox.Launcher.Append
import Lightbox.Launcher.Relay
import Lightbox.Launcher.Concurrent
import Lightbox.Launcher.Windows
import Lightbox.Launcher.Panes
import Lightbox.Launcher.TmuxMode
import Lightbox.Launcher.Button
import Lightbox.Files.Directory
import Lightbox.Rootfs.Create
import Lightbox.Rootfs.Packers
import Lightbox.Js.Replace
import Lightbox.Extension.Expand
import Lightbox.Extension.Paths
import Lightbox.Shell.Commands
import Lightbox.Shell.Lines
import Lightbox.Extension.CommandLine
import Lightbox.Launcher.Invocation
import Lightbox.Launcher.Android
import Lightbox.Rootfs.Mounts
import Lightbox.Rootfs.Build
import Lightbox.Tmux.Sessions
import Lightbox.Riscv.Scripts
import Lightbox.Launcher.TmuxSessions
import Lightbox.Qmp.Protocol
import Lightbox.Riscv.Qmp
import Lightbox.Shell.Errexit
import Lightbox.Files.Archive
import Lightbox.Files.Change
import Lightbox.Rootfs.Initrd
import Lightbox.Rootfs.Contents
import Lightbox.Rootfs.Image
import Lightbox.Riscv.Programs
import Lightbox.Riscv.Exclusion
