import Klone.Lib.Loop
import Klone.Lib.Control
import Klone.Lib.Matcher
import Klone.Lib.CString
import Klone.Lib.Calendar
import Klone.Lib.Scanf
import Klone.Lib.Queue
import Klone.Lib.Evict
import Klone.Lib.Layout
import Klone.Lib.Path
import Klone.Lib.PathStack
import Klone.Lib.Window
import Klone.Lib.Keyed
import Klone.Io.Source
import Klone.Io.Codec
import Klone.Io.Chain
import Klone.Io.Stream
import Klone.Io.ChainContract
import Klone.Io.StreamWrite
import Klone.Io.StreamRead
import Klone.Io.Composition
import Klone.Io.OneCodec
import Klone.Io.Output
import Klone.Io.Input
import Klone.Io.Memory
import Klone.Io.Seek
import Klone.Codec.Gzip
import Klone.Codec.Cipher
import Klone.Codec.CipherCyassl
import Klone.Codec.FlushContract
import Klone.Codec.CipherInverse
import Klone.Io.Drive
import Klone.Utils.Urlncpy
import Klone.Utils.Hexncpy
import Klone.Utils.UrlncpyLoop
import Klone.Utils.Htmlncpy
import Klone.Request.ReadUntil
import Klone.Request.Header
import Klone.Request.Basic
import Klone.Request.Multipart
import Klone.Request.MultipartBounds
import Klone.Request.Vars
import Klone.Request.Cookie
import Klone.Request.CookieRoundTrip
import Klone.Request.HeaderLoad
import Klone.Response.Header
import Klone.Response.Fields
import Klone.Request.HeaderMerge
import Klone.Response.Filter
import Klone.Response.Cookie
import Klone.Emb.Translate
import Klone.Emb.Serve
import Klone.Emb.EndToEnd
import Klone.Session.Atom
import Klone.Session.MemStore
import Klone.Session.StoreInvariant
import Klone.Ppc.Channel
import Klone.Ppc.Framing
import Klone.Session.Messages
import Klone.Session.Replication
import Klone.Session.PreforkLoad
import Klone.Session.Text
import Klone.Session.TextRoundTrip
import Klone.Session.Lines
import Klone.Session.Size
import Klone.Session.Lifecycle
import Klone.Session.Drivers
import Klone.Session.Persistence
import Klone.Session.Client
import Klone.Session.ClientSizes
import Klone.Session.ClientAuth
import Klone.Session.ClientPage
import Klone.Session.Variables
import Klone.Session.SaveTwice
import Klone.Http.Uri
import Klone.Http.Normalize
import Klone.Http.SetUri
import Klone.Http.Resolve
import Klone.Http.Confinement
import Klone.Http.Supplier
import Klone.Http.Serve
import Klone.Http.Noninterference
import Klone.Http.PageReads
import Klone.Http.VhostIsolation
import Klone.Http.Head
import Klone.Http.Redirect
import Klone.Http.ScriptAlias
import Klone.Kloned.Children
import Klone.Utils.HtmlInert
import Klone.Utils.Sqlncpy
import Klone.Utils.HexncpyLoop
import Klone.Utils.Timer
import Klone.Utils.TimerWakeup
import Klone.Utils.Date
import Klone.Utils.DateForms
import Klone.Utils.Addr
import Klone.Klog.File
import Klone.Klog.Memory
import Klone.Klog.ParentLog
import Klone.Request.Delimiting
import Klone.Trans.Page
import Klone.Trans.Extends
import Klone.Trans.Inheritance
import Klone.Trans.Copying
import Klone.Trans.Overriding
import Klone.Trans.Inherited
import Klone.Trans.BlockTree
import Klone.Trans.Preprocess
import Klone.Request.Data
import Klone.Request.Encodings
import Klone.Request.Args
import Klone.Http.CgiHeader
import Klone.Io.CopyLoops
import Klone.Kloned.WatchedFds
import Klone.Session.EvictOldest
import Klone.Kloned.Prefork
import Klone.Http.Kilt
import Klone.Trans.LineDecl
import Klone.Trans.CodeLines
import Klone.Trans.Includes
import Klone.Lib.Digest
import Klone.Utils.Md5
import Klone.Io.Pipe
import Klone.Io.StreamDigest
import Klone.Trans.ScriptToC
import Klone.Trans.CProgram
import Klone.Trans.PageMeaning
import Klone.Request.PostLimit
import Klone.Kloned.LogAdd
import Klone.Kloned.ParentLoop
import Klone.Kloned.SelectRound
import Klone.Kloned.LogOrder
import Klone.Kloned.ParentWaits
import Klone.Request.HeaderStream
import Klone.Request.HeaderText
import Klone.Request.Uploads
import Klone.Request.UploadRoundTrip
import Klone.Http.CgiServe
import Klone.Http.CgiRoundTrip
