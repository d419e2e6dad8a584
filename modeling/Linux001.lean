import Linux001.Boot.ReadIt
import Linux001.Buffer.Flush
import Linux001.Buffer.Layout
import Linux001.Buffer.StaleRead
import Linux001.Clock.Calendar
import Linux001.Exec.Area
import Linux001.Exec.Header
import Linux001.Exec.Tables
import Linux001.Fs.InodeCache
import Linux001.Fs.InodeUnique
import Linux001.Fs.NewBlock
import Linux001.Fs.Pipe
import Linux001.Fs.WriteOffsets
import Linux001.Hd.Geometry
import Linux001.Hd.Queue
import Linux001.Init.Shell
import Linux001.Lib.Strncpy
import Linux001.Lib.Strtok
import Linux001.Mm.Bounds
import Linux001.Mm.Isolation
import Linux001.Mm.Rollback
import Linux001.Namei.Access
import Linux001.Namei.Accounts
import Linux001.Namei.InodeNumbers
import Linux001.Namei.NameMap
import Linux001.Namei.Scans
import Linux001.Proc.Credentials
import Linux001.Proc.ErrorResults
import Linux001.Proc.Reaping
import Linux001.Sched.Counters
import Linux001.Sched.Interruptible
import Linux001.Sched.Switch
import Linux001.Tty.Channels
import Linux001.Tty.Keyboard
import Linux001.Tty.Output
import Linux001.Tty.Reentry
import Linux001.Tty.Serial
import Linux001.User.Stores
import Linux001.Vsprintf.Number
