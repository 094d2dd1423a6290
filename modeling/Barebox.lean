import Barebox.State.Restore
import Barebox.State.Crash
import Barebox.State.DtbRoundTrip
import Barebox.Fit.Coverage
import Barebox.Bootchooser.Boot
import Barebox.Ratp.Delivery
import Barebox.Of.RoundTrip
import Barebox.Of.Resolve
import Barebox.Block.Discard
import Barebox.Sparse.Faithful
import Barebox.Nandbb.Device
import Barebox.Ramfs.File
import Barebox.Files.Agree
import Barebox.Ubootvar.Run
import Barebox.Partitions.Chain
import Barebox.Partitions.Table
import Barebox.Devfs.Inside
import Barebox.Elf.Image
import Barebox.Uimage.Load
import Barebox.Xymodem.Reliable
import Barebox.Fastboot.Answer
import Barebox.FastbootNet.Session
import Barebox.State.Positions
import Barebox.Doom.Lookup
import Barebox.Doom.Clipping
import Barebox.Bootchooser.Resets
import Barebox.Of.CreatePhandle
import Barebox.Of.Progress
import Barebox.Memory.Space
import Barebox.Xymodem.Silence
import Barebox.Of.Alias
import Barebox.Fastboot.Download
import Barebox.Doom.Keys
import Barebox.Doom.Fixed
import Barebox.Tftp
import Barebox.Slice
