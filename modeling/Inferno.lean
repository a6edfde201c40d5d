import Inferno.Dis.AltAgree
import Inferno.Emu.GroupForest
import Inferno.Emu.Isched
import Inferno.Emu.Rwlock
import Inferno.Emu.Sleep
import Inferno.Mp.Mpmul
import Inferno.Dis.Casel
import Inferno.Dis.DeliveryOrder
import Inferno.Dis.HandlerCorrect
import Inferno.Dis.WaitRun
import Inferno.Limbo.CaseCorrect
import Inferno.Styx.FcallCanonical
import Inferno.Lib.RingTree
import Inferno.Pool.PoolRun
import Inferno.Qio.Stream
import Inferno.Qio.WakeupRun
import Inferno.Strings.Run
import Inferno.Emu.WalkIff
import Inferno.Dis.InstCodec
import Inferno.Mnt.Tags
import Inferno.Export.Queue
import Inferno.Export.FidsRun
import Inferno.Export.UqidRun
import Inferno.Export.FlushRun
import Inferno.Export.BuffersRun
import Inferno.Dev.PipeRun
import Inferno.Dev.SrvRun
import Inferno.Dev.CapRun
import Inferno.Fd.FgrpRun
import Inferno.Ns.Namespace
import Inferno.Icurses.ViewRun
import Inferno.Styxlib.Exact
import Inferno.Styxservers.Session
import Inferno.Sexprs.Canonical
import Inferno.Dis.Power
import Inferno.Strings.Utf8
import Inferno.Strings.Convert
import Inferno.Strings.Compare
import Inferno.Dis.Casec
import Inferno.Strings.Index
import Inferno.Dis.Newa
import Inferno.Dis.Movmp
import Inferno.Dis.Slicela
import Inferno.Load.Indices
import Inferno.Lib9.CleannameNormal
import Inferno.Strings.Tokenize
import Inferno.Lib9.Stat
import Inferno.Qio.Blocks
import Inferno.Strings.Xprint
import Inferno.Emu.RunqRun
import Inferno.Emu.Parsename
import Inferno.Emu.Dirread
import Inferno.Emu.Chanio
import Inferno.Emu.Dirpackage
import Inferno.Mnt.Blocks
import Inferno.Lib9.Encoders
import Inferno.Mp.Add
import Inferno.Mp.Shift
import Inferno.Mp.Logic
import Inferno.Mp.Trunc
import Inferno.Mp.Arith
import Inferno.Styxlib.Layout
import Inferno.Lib9.Base
import Inferno.Mk.Varsub
import Inferno.Regexp.Class
import Inferno.Regexp.Exec
import Inferno.Json.Value
import Inferno.Lib9.Ifmt
import Inferno.Icurses.ViewTour
import Inferno.Styxservers.Dirread
import Inferno.Sets.Codec
import Inferno.Json.Text
import Inferno.Json.RoundTrip
import Inferno.Lib9.Quote
